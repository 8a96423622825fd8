/- RxdOs/Boot/Cpu
   source: boot/boot.asm, boot/setup.asm
   digest: The 16-bit instructions of the boot code with the carry they leave, and real-mode
   memory. -/

import RxdOs.Base.Int32

set_option autoImplicit false
set_option relaxedAutoImplicit false

namespace RxdOs.Boot.Cpu

open RxdOs.Base.Int32

abbrev Word := BitVec 16

abbrev Byte := BitVec 8

/-- The one megabyte that is addressed before line A20 is opened. -/
abbrev Memory := BitVec 20 → UInt8

/-! ## Instructions -/

/-- `add a, b`, with the carry. -/
def add (a b : Word) : Word × Bool := (a + b, decide (2 ^ 16 ≤ a.toNat + b.toNat))

/-- `shl a, count`; the carry is the last bit that was shifted out. -/
def shl (a : Word) (count : Nat) : Word × Bool := (a <<< count, a.getLsbD (16 - count))

/-- `shr a, count`; the carry is the last bit that was shifted out. -/
def shr (a : Word) (count : Nat) : Word × Bool := (a >>> count, a.getLsbD (count - 1))

/-- `div d` on ax: al and ah, or a divide error. -/
def div (ax : Word) (d : Byte) : Option (Byte × Byte) :=
  if d = 0 ∨ 256 ≤ ax.toNat / d.toNat then none
  else some (BitVec.ofNat 8 (ax.toNat / d.toNat), BitVec.ofNat 8 (ax.toNat % d.toNat))

/-- The address that a segment and an offset stand for. -/
def physical (segment offset : Word) : BitVec 20 :=
  BitVec.ofNat 20 (16 * segment.toNat + offset.toNat)

/-- `mov word [offset], w` -/
def storeWord (mem : Memory) (segment offset w : Word) : Memory :=
  Function.update
    (Function.update mem (physical segment offset) (UInt8.ofBitVec (w.setWidth 8)))
    (physical segment (offset + 1)) (UInt8.ofBitVec (w.extractLsb' 8 8))

/-- An unsigned int that the kernel reads later on. -/
def readU32 (mem : Memory) (address : Nat) : Nat :=
  wordAt (fun a => mem (BitVec.ofNat 20 a)) address 4

/-! ## What they compute -/

section Values

variable {a b ax segment offset : Word} {d : Byte} {count : Nat}

theorem add_toNat (a b : Word) : (add a b).1.toNat = (a.toNat + b.toNat) % 2 ^ 16 :=
  BitVec.toNat_add a b

theorem shl_toNat (a : Word) (count : Nat) :
    (shl a count).1.toNat = a.toNat * 2 ^ count % 2 ^ 16 := by
  rw [shl, BitVec.toNat_shiftLeft, Nat.shiftLeft_eq]

theorem shr_toNat (a : Word) (count : Nat) : (shr a count).1.toNat = a.toNat / 2 ^ count := by
  rw [shr, BitVec.toNat_ushiftRight, Nat.shiftRight_eq_div_pow]

theorem shr_carry (a : Word) (count : Nat) :
    (shr a count).2 = decide (a.toNat / 2 ^ (count - 1) % 2 = 1) := by
  rw [shr, BitVec.getLsbD, Nat.testBit_eq_decide_div_mod_eq]

theorem and_mask_toNat (a : Word) {n : Nat} (hn : n ≤ 16) :
    (a &&& BitVec.ofNat 16 (2 ^ n - 1)).toNat = a.toNat % 2 ^ n := by
  have hmask : 2 ^ n - 1 < 2 ^ 16 :=
    lt_of_lt_of_le (Nat.sub_lt (Nat.two_pow_pos n) Nat.one_pos)
      (Nat.pow_le_pow_right (by decide) hn)
  rw [BitVec.toNat_and, BitVec.toNat_ofNat, Nat.mod_eq_of_lt hmask, Nat.and_two_pow_sub_one_eq_mod]

/-- The division succeeds when the quotient has room in al. -/
theorem div_eq_some (hd : d ≠ 0) (hfit : ax.toNat / d.toNat < 256) :
    div ax d =
      some (BitVec.ofNat 8 (ax.toNat / d.toNat), BitVec.ofNat 8 (ax.toNat % d.toNat)) :=
  if_neg (not_or.mpr ⟨hd, not_le.mpr hfit⟩)

/-- al and ah after a division that succeeded. -/
theorem div_values {q r : Byte} (h : div ax d = some (q, r)) :
    q.toNat = ax.toNat / d.toNat ∧ r.toNat = ax.toNat % d.toNat := by
  unfold div at h
  split at h
  · cases h
  · rename_i hok
    obtain ⟨hd, hfit⟩ := not_or.mp hok
    cases h
    have hrem : ax.toNat % d.toNat < d.toNat :=
      Nat.mod_lt _ (BitVec.toNat_pos_of_ne_zero hd)
    have hlt := d.isLt
    refine ⟨?_, ?_⟩
    · rw [BitVec.toNat_ofNat, Nat.mod_eq_of_lt (not_le.mp hfit)]
    · rw [BitVec.toNat_ofNat, Nat.mod_eq_of_lt (hrem.trans hlt)]

/-- Two kilobytes more in a segment register are 32 KB more in the address. -/
theorem physical_add (segment offset : Word) :
    physical (segment + 0x800) offset = physical segment offset + 0x8000 := by
  apply BitVec.eq_of_toNat_eq
  have hseg : (0x800 : Word).toNat = 0x800 := by decide
  have haddr : (0x8000 : BitVec 20).toNat = 0x8000 := by decide
  rw [physical, physical, BitVec.toNat_ofNat, BitVec.toNat_add, BitVec.toNat_add,
    BitVec.toNat_ofNat, hseg, haddr]
  omega

end Values

end RxdOs.Boot.Cpu
