/- RxdOs/Base/Int32
   digest: 32-bit two's complement arithmetic on integers, and little-endian words in memory. -/

import Mathlib.Tactic

set_option autoImplicit false
set_option relaxedAutoImplicit false

namespace RxdOs.Base.Int32

/-- The int a result wraps around to. -/
def wrap (x : Int) : Int := (x + 2 ^ 31) % 2 ^ 32 - 2 ^ 31

/-- The value read as an unsigned int. -/
def toU32 (x : Int) : Int := x % 2 ^ 32

theorem wrap_of_range {x : Int} (hlo : -2 ^ 31 ≤ x) (hhi : x < 2 ^ 31) : wrap x = x := by
  simp only [wrap]
  omega

theorem toU32_of_range {x : Int} (hlo : 0 ≤ x) (hhi : x < 2 ^ 32) : toU32 x = x :=
  Int.emod_eq_of_lt hlo hhi

/-- Byte `i` of a value, lowest first. -/
def byteOf (x : Int) (i : Nat) : UInt8 := UInt8.ofNat ((toU32 x).toNat / 256 ^ i % 256)

/-- The `n` bytes at `off`, as an unsigned number. -/
def wordAt (mem : Nat → UInt8) (off : Nat) : Nat → Nat
  | 0 => 0
  | n + 1 => (mem off).toNat + 256 * wordAt mem (off + 1) n

/-- The same bytes as a signed number. -/
def signedAt (mem : Nat → UInt8) (off n : Nat) : Int := Int.bmod (wordAt mem off n) (256 ^ n)

/-! ## Words and their bytes -/

section Words

variable {mem mem' : Nat → UInt8} {off off' n k : Nat} {x : Int}

theorem wordAt_congr (h : ∀ i < n, mem (off + i) = mem' (off' + i)) :
    wordAt mem off n = wordAt mem' off' n := by
  induction n generalizing off off' with
  | zero => rfl
  | succ n ih =>
    have hhead : mem off = mem' off' := h 0 (Nat.succ_pos n)
    have htail : wordAt mem (off + 1) n = wordAt mem' (off' + 1) n := by
      refine ih fun i hi => ?_
      have hnext := h (i + 1) (by omega)
      rwa [Nat.add_comm i 1, ← Nat.add_assoc, ← Nat.add_assoc] at hnext
    rw [wordAt, wordAt, hhead, htail]

theorem byteOf_toNat (x : Int) (i : Nat) :
    (byteOf x i).toNat = (toU32 x).toNat / 256 ^ i % 256 := by
  rw [byteOf, UInt8.toNat_ofNat']
  exact Nat.mod_mod _ _

/-- Consecutive bytes of a value, put together again. -/
theorem wordAt_byteOf (h : ∀ i < n, mem (off + i) = byteOf x (k + i)) :
    wordAt mem off n = (toU32 x).toNat / 256 ^ k % 256 ^ n := by
  induction n generalizing off k with
  | zero => rw [wordAt, pow_zero, Nat.mod_one]
  | succ n ih =>
    have hhead : (mem off).toNat = (toU32 x).toNat / 256 ^ k % 256 := by
      rw [← byteOf_toNat]
      exact congrArg UInt8.toNat (h 0 (Nat.succ_pos n))
    have htail : wordAt mem (off + 1) n = (toU32 x).toNat / 256 ^ (k + 1) % 256 ^ n := by
      refine ih fun i hi => ?_
      have hnext := h (i + 1) (by omega)
      rwa [Nat.add_comm i 1, ← Nat.add_assoc, ← Nat.add_assoc] at hnext
    rw [wordAt, hhead, htail, pow_succ, ← Nat.div_div_eq_div_mul, pow_succ 256 n,
      Nat.mul_comm (256 ^ n) 256, Nat.mod_mul]

theorem wordAt_lt (mem : Nat → UInt8) (off n : Nat) : wordAt mem off n < 256 ^ n := by
  induction n generalizing off with
  | zero => exact Nat.one_pos
  | succ n ih =>
    have hbyte := (mem off).toNat_lt
    have hrest := ih (off + 1)
    rw [wordAt, pow_succ]
    omega

/-- All bytes of a number that has no more than `n`. -/
theorem wordAt_byteOf_nat {w : Nat} (hn : n ≤ 4) (hw : w < 256 ^ n)
    (h : ∀ i < n, mem (off + i) = byteOf w i) : wordAt mem off n = w := by
  have hle : (256 : Nat) ^ n ≤ 256 ^ 4 := Nat.pow_le_pow_right (by decide) hn
  have hval : (toU32 (w : Int)).toNat = w := by
    simp only [toU32]
    omega
  have hword : wordAt mem off n = (toU32 (w : Int)).toNat / 256 ^ 0 % 256 ^ n :=
    wordAt_byteOf fun i hi => by rw [Nat.zero_add, h i hi]
  rw [hword, hval, pow_zero, Nat.div_one, Nat.mod_eq_of_lt hw]

/-- All bytes of a signed number that has no more than `n`. -/
theorem signedAt_byteOf (hn : n ≤ 4) (hlo : -(256 : Int) ^ n ≤ 2 * x) (hhi : 2 * x < (256 : Int) ^ n)
    (h : ∀ i < n, mem (off + i) = byteOf x i) : signedAt mem off n = x := by
  have hword : wordAt mem off n = (toU32 x).toNat / 256 ^ 0 % 256 ^ n :=
    wordAt_byteOf fun i hi => by rw [Nat.zero_add, h i hi]
  have hdvd : (256 : Int) ^ n ∣ 2 ^ 32 := pow_dvd_pow (256 : Int) hn
  have hcast : ((wordAt mem off n : Nat) : Int) = x % (256 : Int) ^ n := by
    have hpos : 0 ≤ toU32 x := Int.emod_nonneg _ (by decide)
    rw [hword, pow_zero, Nat.div_one]
    push_cast
    rw [Int.toNat_of_nonneg hpos, toU32, Int.emod_emod_of_dvd _ hdvd]
  have hbmod : Int.bmod x (256 ^ n) = x := by
    have hpow : ((256 ^ n : Nat) : Int) = (256 : Int) ^ n := by push_cast; rfl
    exact Int.bmod_eq_of_le (by omega) (by omega)
  rw [signedAt, hcast]
  have hmod := @Int.emod_bmod x (256 ^ n)
  push_cast at hmod
  rw [hmod, hbmod]

end Words

end RxdOs.Base.Int32
