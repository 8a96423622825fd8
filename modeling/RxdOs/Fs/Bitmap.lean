/- RxdOs/Fs/Bitmap
   source: fs/bitmap.h
   digest: The inode and zone bitmaps on the disk, as sets of bits. -/

import RxdOs.Base.Assert
import RxdOs.Lib.Search

set_option autoImplicit false
set_option relaxedAutoImplicit false

namespace RxdOs.Fs.Bitmap

open RxdOs.Base.Assert RxdOs.Lib.Search

def sectorSize : Nat := 512
def sectorBits : Nat := 4096
def blockSize : Nat := 1024

/-- The BLOCK_SIZE bytes of one block. -/
abbrev Block := Fin 1024 → UInt8

/-- The blocks of the device as bread shows them. -/
abbrev Disk := Nat → Block

def byteAt (block : Block) (i : Nat) : UInt8 := if h : i < 1024 then block ⟨i, h⟩ else 0

/-- `1 << (offset % 8)` -/
def mask (offset : Nat) : UInt8 := ⟨1#8 <<< (offset % 8)⟩

def setBit (block : Block) (offset : Nat) : Block := fun i =>
  if i.val = offset / 8 then block i ||| mask offset else block i

def unsetBit (block : Block) (offset : Nat) : Block := fun i =>
  if i.val = offset / 8 then block i &&& ~~~mask offset else block i

def testBit (block : Block) (offset : Nat) : Bool :=
  byteAt block (offset / 8) &&& mask offset ≠ 0

/-- `_set_n_bit`: whole bytes of ones, then the rest of the ones in one byte. -/
def setNBit (block : Block) (count : Nat) : Block := fun i =>
  if i.val < count / 8 then 0xff
  else if i.val = count / 8 ∧ count % 8 ≠ 0 then ⟨(1#8 <<< (count % 8)) - 1#8⟩
  else block i

/-- `while (tmp & 1) { tmp >>= 1; ++zero_offset; }` -/
def lowOnes (tmp : UInt8) : Nat := firstFrom (fun k => (tmp.toBitVec >>> k) &&& 1#8 = 0#8) 8 0

def findFirstZero (block : Block) (limit : Nat) : Option Nat :=
  let first := firstFrom (fun i => byteAt block i ≠ 0xff) limit 0
  if first = limit then none else some (first * 8 + lowOnes (byteAt block first))

/-- The blocks from `start` on, with `n` of them left before `end`. -/
def bitmapAlloc (disk : Disk) : Nat → Nat → Nat → Kernel (Nat × Disk)
  | 0, _, _ => .error (.panic "_bitmap_alloc: map is full")
  | n + 1, start, bit =>
    match findFirstZero (disk start) sectorSize with
    | some tmp =>
      let bit := bit + tmp
      pure (bit, Function.update disk start (setBit (disk start) (bit % sectorBits)))
    | none => bitmapAlloc disk n (start + 1) (bit + sectorBits)

/-- `(end - start) * SECTOR_BITS` -/
def mapBits (start stop : Nat) : Int := Int.bmod ((stop - start) * sectorBits : Nat) (2 ^ 32)

def bitmapFree (disk : Disk) (start stop bit : Nat) : Kernel Disk :=
  if bit ≥ mapBits start stop then .error (.panic "_bitmap_free: invalid bit")
  else
    let nr := start + bit / sectorBits
    pure (Function.update disk nr (unsetBit (disk nr) (bit % sectorBits)))

def bitmapTest (disk : Disk) (start stop bit : Nat) : Kernel Bool :=
  if bit ≥ mapBits start stop then .error (.panic "_bitmap_test: invalid bit")
  else pure (testBit (disk (start + bit / sectorBits)) (bit % sectorBits))

/-! ## Bits of a block -/

/-- Bit `k` of a block, as a plain fact about its bytes. -/
def BitAt (block : Block) (k : Nat) : Prop := (byteAt block (k / 8)).toBitVec.getLsbD (k % 8) = true

instance (block : Block) (k : Nat) : Decidable (BitAt block k) :=
  inferInstanceAs (Decidable (_ = true))

theorem mask_getLsbD (offset j : Nat) :
    (mask offset).toBitVec.getLsbD j = decide (j = offset % 8) := by
  have hlt : offset % 8 < 8 := Nat.mod_lt _ (by decide)
  rw [Bool.eq_iff_iff]
  simp only [mask, BitVec.getLsbD_shiftLeft, BitVec.getLsbD_one, Bool.and_eq_true,
    decide_eq_true_eq, Bool.not_eq_true', decide_eq_false_iff_not]
  omega

theorem byteAt_setBit (block : Block) (offset i : Nat) :
    byteAt (setBit block offset) i =
      if i = offset / 8 ∧ i < 1024 then byteAt block i ||| mask offset else byteAt block i := by
  by_cases hi : i < 1024 <;> simp [byteAt, setBit, hi]

theorem bitAt_setBit {block : Block} {offset : Nat} (hlt : offset < 8192) (k : Nat) :
    BitAt (setBit block offset) k ↔ k = offset ∨ BitAt block k := by
  simp only [BitAt, byteAt_setBit]
  split_ifs with hbyte
  · simp only [UInt8.toBitVec_or, BitVec.getLsbD_or, mask_getLsbD, Bool.or_eq_true,
      decide_eq_true_eq]
    have hk : k % 8 = offset % 8 ↔ k = offset := by omega
    rw [hk, or_comm]
  · have hk : k ≠ offset := by omega
    simp [hk]

theorem byteAt_unsetBit (block : Block) (offset i : Nat) :
    byteAt (unsetBit block offset) i =
      if i = offset / 8 ∧ i < 1024 then byteAt block i &&& ~~~mask offset else byteAt block i := by
  by_cases hi : i < 1024 <;> simp [byteAt, unsetBit, hi]

theorem bitAt_unsetBit {block : Block} {offset : Nat} (hlt : offset < 8192) (k : Nat) :
    BitAt (unsetBit block offset) k ↔ k ≠ offset ∧ BitAt block k := by
  simp only [BitAt, byteAt_unsetBit]
  split_ifs with hbyte
  · simp only [UInt8.toBitVec_and, UInt8.toBitVec_not, BitVec.getLsbD_and, BitVec.getLsbD_not,
      mask_getLsbD, Bool.and_eq_true, Bool.not_eq_true', decide_eq_true_eq,
      decide_eq_false_iff_not]
    have hk : k % 8 = offset % 8 ↔ k = offset := by omega
    have hlt8 : k % 8 < 8 := Nat.mod_lt _ (by decide)
    rw [hk]
    tauto
  · have hk : k ≠ offset := by omega
    simp [hk]

theorem testBit_iff (block : Block) (k : Nat) : testBit block k = true ↔ BitAt block k := by
  have hzero : ∀ x : UInt8, x &&& mask k = 0 ↔ x.toBitVec.getLsbD (k % 8) = false := by
    intro x
    rw [← UInt8.toBitVec_inj, UInt8.toBitVec_and]
    constructor
    · intro h
      have hbit := congrArg (·.getLsbD (k % 8)) h
      simpa [mask_getLsbD] using hbit
    · intro h
      apply BitVec.eq_of_getLsbD_eq
      intro i hi
      by_cases hik : i = k % 8 <;> simp [mask_getLsbD, hik, h]
  simp [testBit, BitAt, hzero]

theorem byteAt_setNBit (block : Block) {count : Nat} (hlt : count < 8192) (i : Nat) :
    byteAt (setNBit block count) i = if i < count / 8 then 0xff
      else if i = count / 8 ∧ count % 8 ≠ 0 then ⟨(1#8 <<< (count % 8)) - 1#8⟩
      else byteAt block i := by
  by_cases hi : i < 1024
  · simp [byteAt, setNBit, hi]
  · have h1 : ¬i < count / 8 := by omega
    have h2 : ¬i = count / 8 := by omega
    simp [byteAt, hi, h1, h2]

theorem lowMask_getLsbD : ∀ n < 8, ∀ j < 8,
    ((1#8 <<< n) - 1#8).getLsbD j = decide (j < n) := by
  decide

theorem bitAt_setNBit {block : Block} (hzero : ∀ i, byteAt block i = 0) {count : Nat}
    (hlt : count < 8192) (k : Nat) : BitAt (setNBit block count) k ↔ k < count := by
  have h8 : k % 8 < 8 := Nat.mod_lt _ (by decide)
  simp only [BitAt, byteAt_setNBit block hlt, hzero]
  split_ifs with h1 h2
  · have hff : ∀ j < 8, (0xff : UInt8).toBitVec.getLsbD j = true := by decide
    rw [hff _ h8]
    simp only [true_iff]
    omega
  · rw [lowMask_getLsbD _ (Nat.mod_lt _ (by decide)) _ h8, decide_eq_true_eq]
    omega
  · have hbit : (0 : UInt8).toBitVec.getLsbD (k % 8) = false := by simp
    rw [hbit]
    simp only [Bool.false_eq_true, false_iff]
    omega

/-! ## The first zero -/

theorem lowOnes_spec (tmp : UInt8) (hne : tmp ≠ 0xff) :
    lowOnes tmp < 8 ∧ tmp.toBitVec.getLsbD (lowOnes tmp) = false ∧
      ∀ j < lowOnes tmp, tmp.toBitVec.getLsbD j = true := by
  have hbit : ∀ k, ((tmp.toBitVec >>> k) &&& 1#8 = 0#8) ↔ tmp.toBitVec.getLsbD k = false := by
    intro k
    constructor
    · intro h
      have hbit := congrArg (·.getLsbD 0) h
      simpa using hbit
    · intro h
      apply BitVec.eq_of_getLsbD_eq
      intro i hi
      by_cases hi0 : i = 0 <;> simp [hi0, h]
  obtain ⟨⟨-, hle⟩, hbelow, hat⟩ :=
    firstFrom_spec (p := fun k => (tmp.toBitVec >>> k) &&& 1#8 = 0#8) 8 0
  have hones : ∀ j < lowOnes tmp, tmp.toBitVec.getLsbD j = true := by
    intro j hj
    have := hbelow j (Nat.zero_le _) hj
    rw [hbit] at this
    simpa using this
  have hlt : lowOnes tmp < 8 := by
    by_contra hge
    refine hne ?_
    apply UInt8.toBitVec_inj.mp
    apply BitVec.eq_of_getLsbD_eq
    intro i hi
    have hff : ∀ j < 8, (0xff : UInt8).toBitVec.getLsbD j = true := by decide
    rw [hff i hi]
    exact hones i (by omega)
  exact ⟨hlt, (hbit _).mp (hat hlt), hones⟩

theorem byte_ff_bits {block : Block} {i : Nat} (h : byteAt block i = 0xff) {k : Nat}
    (hk : k / 8 = i) : BitAt block k := by
  have hff : ∀ j < 8, (0xff : UInt8).toBitVec.getLsbD j = true := by decide
  rw [BitAt, hk, h]
  exact hff _ (Nat.mod_lt _ (by decide))

theorem findFirstZero_some {block : Block} {limit b : Nat}
    (h : findFirstZero block limit = some b) :
    b < limit * 8 ∧ ¬BitAt block b ∧ ∀ k < b, BitAt block k := by
  obtain ⟨⟨-, hle⟩, hbelow, hat⟩ := firstFrom_spec (p := fun i => byteAt block i ≠ 0xff) limit 0
  simp only [findFirstZero] at h
  set first := firstFrom (fun i => byteAt block i ≠ 0xff) limit 0
  split_ifs at h with hend
  obtain ⟨hlt, hzero, hones⟩ := lowOnes_spec _ (hat (by omega))
  have hb : first * 8 + lowOnes (byteAt block first) = b := Option.some.inj h
  have hdiv : b / 8 = first := by omega
  have hmod : b % 8 = lowOnes (byteAt block first) := by omega
  refine ⟨by omega, ?_, fun k hk => ?_⟩
  · rw [BitAt, hdiv, hmod, hzero]
    simp
  · by_cases hkf : k / 8 = first
    · rw [BitAt, hkf]
      exact hones _ (by omega)
    · exact byte_ff_bits (not_not.mp (hbelow (k / 8) (Nat.zero_le _) (by omega))) rfl

theorem findFirstZero_none {block : Block} {limit : Nat} (h : findFirstZero block limit = none) :
    ∀ k < limit * 8, BitAt block k := by
  obtain ⟨⟨-, hle⟩, hbelow, -⟩ := firstFrom_spec (p := fun i => byteAt block i ≠ 0xff) limit 0
  simp only [findFirstZero] at h
  split_ifs at h with hend
  intro k hk
  rw [hend] at hbelow
  exact byte_ff_bits (not_not.mp (hbelow (k / 8) (Nat.zero_le _) (by omega))) rfl

/-! ## The maps -/

/-- Bit `k` of the map starting at block `start`. -/
def MapBit (disk : Disk) (start k : Nat) : Prop :=
  BitAt (disk (start + k / sectorBits)) (k % sectorBits)

instance (disk : Disk) (start k : Nat) : Decidable (MapBit disk start k) :=
  inferInstanceAs (Decidable (BitAt _ _))

/-- Writes outside the blocks of a map keep its bits. -/
theorem mapBit_congr {disk disk' : Disk} {start k : Nat}
    (h : disk' (start + k / sectorBits) = disk (start + k / sectorBits)) :
    MapBit disk' start k ↔ MapBit disk start k := by
  rw [MapBit, h, MapBit]

/-- Two bits of a map lie in one block exactly when their numbers do. -/
theorem mapBit_update {disk : Disk} {start b : Nat} {block : Block} {k : Nat} :
    MapBit (Function.update disk (start + b / sectorBits) block) start k ↔
      if k / sectorBits = b / sectorBits then BitAt block (k % sectorBits)
      else MapBit disk start k := by
  simp only [MapBit]
  split_ifs with hk
  · rw [hk, Function.update_self]
  · rw [Function.update_of_ne (by omega)]

theorem mapBit_setBit {disk : Disk} {start b k : Nat} :
    MapBit (Function.update disk (start + b / sectorBits)
        (setBit (disk (start + b / sectorBits)) (b % sectorBits))) start k ↔
      k = b ∨ MapBit disk start k := by
  have hlt : b % sectorBits < 8192 := (Nat.mod_lt _ (by decide)).trans (by decide)
  rw [mapBit_update, bitAt_setBit hlt]
  split_ifs with hk
  · have heq : k % sectorBits = b % sectorBits ↔ k = b := by
      simp only [sectorBits] at hk ⊢
      omega
    rw [heq, MapBit, hk]
  · have hne : k ≠ b := fun heq => hk (by rw [heq])
    simp [hne]

theorem mapBit_unsetBit {disk : Disk} {start b k : Nat} :
    MapBit (Function.update disk (start + b / sectorBits)
        (unsetBit (disk (start + b / sectorBits)) (b % sectorBits))) start k ↔
      k ≠ b ∧ MapBit disk start k := by
  have hlt : b % sectorBits < 8192 := (Nat.mod_lt _ (by decide)).trans (by decide)
  rw [mapBit_update, bitAt_unsetBit hlt]
  split_ifs with hk
  · have heq : k % sectorBits = b % sectorBits ↔ k = b := by
      simp only [sectorBits] at hk ⊢
      omega
    rw [ne_eq, heq, MapBit, hk]
  · have hne : k ≠ b := fun heq => hk (by rw [heq])
    simp [hne]

/-- An allocation takes the lowest zero and sets it. -/
theorem bitmapAlloc_ok {disk disk' : Disk} {n start bit b : Nat} (hbit : bit % sectorBits = 0)
    (h : bitmapAlloc disk n start bit = .ok (b, disk')) :
    ∃ k < n * sectorBits, b = bit + k ∧ ¬MapBit disk start k ∧ (∀ j < k, MapBit disk start j) ∧
      disk' = Function.update disk (start + k / sectorBits)
        (setBit (disk (start + k / sectorBits)) (k % sectorBits)) := by
  induction n generalizing start bit with
  | zero => cases h
  | succ n ih =>
    rw [bitmapAlloc] at h
    split at h
    · rename_i tmp hfind
      obtain ⟨hlt, hzero, hones⟩ := findFirstZero_some hfind
      simp only [sectorSize] at hlt
      have hdiv : tmp / sectorBits = 0 := Nat.div_eq_of_lt (by simp only [sectorBits]; omega)
      have hmod : tmp % sectorBits = tmp := Nat.mod_eq_of_lt (by simp only [sectorBits]; omega)
      have hbt : (bit + tmp) % sectorBits = tmp := by
        rw [Nat.add_mod, hbit, Nat.zero_add, Nat.mod_mod, hmod]
      simp only [pure_eq_ok, Except.ok.injEq, Prod.mk.injEq] at h
      obtain ⟨rfl, rfl⟩ := h
      refine ⟨tmp, ?_, rfl, ?_, fun j hj => ?_, ?_⟩
      · simp only [sectorBits]
        omega
      · rwa [MapBit, hdiv, hmod]
      · have hj' : j < sectorBits := by simp only [sectorBits]; omega
        rw [MapBit, Nat.div_eq_of_lt hj', Nat.mod_eq_of_lt hj']
        exact hones j hj
      · rw [hdiv, hmod, hbt]
        rfl
    · rename_i hfind
      have hfull := findFirstZero_none hfind
      obtain ⟨k, hk, rfl, hzero, hones, rfl⟩ := ih (by rw [Nat.add_mod_right, hbit]) h
      have hnext : ∀ j, start + (j + sectorBits) / sectorBits = start + 1 + j / sectorBits := by
        intro j
        simp only [sectorBits]
        omega
      refine ⟨k + sectorBits, ?_, by omega, ?_, fun j hj => ?_, ?_⟩
      · simp only [sectorBits] at hk ⊢
        omega
      · rw [MapBit, hnext, Nat.add_mod_right]
        exact hzero
      · by_cases hjs : j < sectorBits
        · rw [MapBit, Nat.div_eq_of_lt hjs, Nat.mod_eq_of_lt hjs]
          exact hfull j (by simp only [sectorBits, sectorSize] at *; omega)
        · have hbefore := hones (j - sectorBits) (by omega)
          obtain ⟨i, rfl⟩ := Nat.exists_eq_add_of_le' (not_lt.mp hjs)
          rw [Nat.add_sub_cancel] at hbefore
          rw [MapBit, hnext, Nat.add_mod_right]
          exact hbefore
      · rw [hnext, Nat.add_mod_right]

/-- Only a full map makes an allocation fail. -/
theorem bitmapAlloc_of_free {disk : Disk} {n start bit k : Nat} (hk : k < n * sectorBits)
    (hzero : ¬MapBit disk start k) : ∃ r, bitmapAlloc disk n start bit = .ok r := by
  induction n generalizing start bit k with
  | zero => omega
  | succ n ih =>
    rw [bitmapAlloc]
    split
    · exact ⟨_, rfl⟩
    · rename_i hfind
      have hfull := findFirstZero_none hfind
      by_cases hks : k < sectorBits
      · rw [MapBit, Nat.div_eq_of_lt hks, Nat.mod_eq_of_lt hks] at hzero
        exact absurd (hfull k (by simp only [sectorBits, sectorSize] at *; omega)) hzero
      · obtain ⟨i, rfl⟩ := Nat.exists_eq_add_of_le' (not_lt.mp hks)
        refine ih (k := i) ?_ ?_
        · simp only [sectorBits] at hk ⊢
          omega
        · have hnext : start + (i + sectorBits) / sectorBits = start + 1 + i / sectorBits := by
            simp only [sectorBits]
            omega
          rw [MapBit, hnext, Nat.add_mod_right] at hzero
          exact hzero

theorem bmod_of_lt {n : Nat} (h : n < 2 ^ 31) : Int.bmod n (2 ^ 32) = n := by
  apply Int.bmod_eq_of_le_mul_two
  · omega
  · omega

theorem bmod_le_self (n : Nat) : Int.bmod n (2 ^ 32) ≤ n := by
  rw [Int.bmod_eq_emod, ← Int.natCast_mod]
  have hle := Nat.mod_le n (2 ^ 32)
  split <;> omega

/-- Up to 2^19 blocks the int product is the number of bits of the map. -/
theorem mapBits_eq {start stop : Nat} (h : stop - start < 2 ^ 19) :
    mapBits start stop = ((stop - start) * sectorBits : Nat) :=
  bmod_of_lt (by simp only [sectorBits]; omega)

/-- It is never more. -/
theorem mapBits_le (start stop : Nat) : mapBits start stop ≤ ((stop - start) * sectorBits : Nat) :=
  bmod_le_self _

theorem bitmapFree_ok {disk disk' : Disk} {start stop b : Nat}
    (h : bitmapFree disk start stop b = .ok disk') :
    b < (stop - start) * sectorBits ∧ disk' = Function.update disk (start + b / sectorBits)
      (unsetBit (disk (start + b / sectorBits)) (b % sectorBits)) := by
  simp only [bitmapFree, ite_error_eq_ok, not_le, ge_iff_le, pure_eq_ok, Except.ok.injEq] at h
  exact ⟨Int.ofNat_lt.mp (h.1.trans_le (mapBits_le ..)), h.2.symm⟩

theorem bitmapTest_ok {disk : Disk} {start stop b : Nat} {t : Bool}
    (h : bitmapTest disk start stop b = .ok t) :
    b < (stop - start) * sectorBits ∧ (t = true ↔ MapBit disk start b) := by
  simp only [bitmapTest, ite_error_eq_ok, not_le, ge_iff_le, pure_eq_ok, Except.ok.injEq] at h
  obtain ⟨hlt, rfl⟩ := h
  exact ⟨Int.ofNat_lt.mp (hlt.trans_le (mapBits_le ..)), testBit_iff _ _⟩

theorem bitmapFree_of_lt {start stop b : Nat} (disk : Disk) (hcount : stop - start < 2 ^ 19)
    (hlt : b < (stop - start) * sectorBits) : bitmapFree disk start stop b =
      .ok (Function.update disk (start + b / sectorBits)
        (unsetBit (disk (start + b / sectorBits)) (b % sectorBits))) := by
  rw [bitmapFree, mapBits_eq hcount, if_neg (not_le.mpr (Int.ofNat_lt.mpr hlt))]
  rfl

theorem bitmapTest_of_lt {start stop b : Nat} (disk : Disk) (hcount : stop - start < 2 ^ 19)
    (hlt : b < (stop - start) * sectorBits) :
    bitmapTest disk start stop b = .ok (decide (MapBit disk start b)) := by
  rw [bitmapTest, mapBits_eq hcount, if_neg (not_le.mpr (Int.ofNat_lt.mpr hlt)), pure_eq_ok,
    Except.ok.injEq, Bool.eq_iff_iff, testBit_iff, decide_eq_true_eq, MapBit]

end RxdOs.Fs.Bitmap
