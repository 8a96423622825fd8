/- RxdOs/Boot/MemSize
   source: boot/setup.asm (_func_check_mem, SETUP_START), include/head.h (BOOT_PARAM_MEM_SIZE)
   digest: The memory size that setup.asm computes from the two BIOS counts is their sum exactly
   when bit 9 of the second count happens to be the carry of the addition. -/

import RxdOs.Boot.Cpu

set_option autoImplicit false
set_option relaxedAutoImplicit false

namespace RxdOs.Boot.MemSize

open RxdOs.Boot.Cpu

/-! ## setup.asm -/

/-- What int 15h, function e801h returns: kilobytes between 1 MB and 16 MB, and blocks of 64 KB
above. -/
structure BiosMem where
  carry : Bool
  ax : Word
  bx : Word

/-- From `mov cx, bx` on: ax and bx. -/
def combine (ax bx : Word) : Word × Word :=
  let cx := bx &&& 0x03ff
  let (cx, _) := shl cx 6
  let (cx, _) := add cx ax
  let ax := cx
  -- this shift sets the carry as well: `jnc` does not see the one of the addition
  let (bx, carry) := shr bx 10
  (ax, if carry then bx + 1 else bx)

/-- _func_check_mem; `none` is `jmp $`. -/
def checkMem (bios : BiosMem) : Option (Word × Word) :=
  if bios.carry then none
  else if bios.ax = 0 then none
  else if bios.bx = 0 then some (bios.ax, bios.bx)
  else some (combine bios.ax bios.bx)

/-- INIT_SEGMENT, in ds from boot.asm on. -/
def initSegment : Word := 0x9000

/-- `mov word [2], ax`, `mov word [4], bx` -/
def saveMemSize (bios : BiosMem) (mem : Memory) : Option Memory :=
  (checkMem bios).map fun r => storeWord (storeWord mem initSegment 2 r.1) initSegment 4 r.2

/-- BOOT_PARAM_MEM_SIZE -/
def bootParamMemSize (mem : Memory) : Nat := readU32 mem 0x90002

/-! ## What is asked of it -/

/-- The sum of both counts is returned in bx:ax, and is what the kernel reads. -/
def Correct (ax bx : Word) (mem : Memory) : Prop :=
  ∃ low high mem', checkMem ⟨false, ax, bx⟩ = some (low, high) ∧
    saveMemSize ⟨false, ax, bx⟩ mem = some mem' ∧
    low.toNat + 2 ^ 16 * high.toNat = ax.toNat + 64 * bx.toNat ∧
    bootParamMemSize mem' = ax.toNat + 64 * bx.toNat

/-- The addition leaves a carry. -/
def Carries (ax bx : Word) : Prop := 2 ^ 16 ≤ ax.toNat + 64 * (bx.toNat % 1024)

/-! ## The value -/

/-- The two stored words, read as one number. -/
theorem bootParamMemSize_store (mem : Memory) (low high : Word) :
    bootParamMemSize (storeWord (storeWord mem initSegment 2 low) initSegment 4 high) =
      low.toNat + 2 ^ 16 * high.toNat := by
  have haddr : physical initSegment 2 = 0x90002 ∧ physical initSegment (2 + 1) = 0x90003 ∧
      physical initSegment 4 = 0x90004 ∧ physical initSegment (4 + 1) = 0x90005 := by decide
  obtain ⟨h2, h3, h4, h5⟩ := haddr
  have hlow := low.isLt
  have hhigh := high.isLt
  simp only [bootParamMemSize, readU32, RxdOs.Base.Int32.wordAt, storeWord, h2, h3, h4, h5]
  simp [Function.update]
  omega

theorem combine_low (ax bx : Word) :
    (combine ax bx).1.toNat = (ax.toNat + 64 * (bx.toNat % 1024)) % 2 ^ 16 := by
  have hmask : (bx &&& BitVec.ofNat 16 (2 ^ 10 - 1)).toNat = bx.toNat % 2 ^ 10 :=
    and_mask_toNat bx (by decide)
  have hlow : (combine ax bx).1 = (add (shl (bx &&& BitVec.ofNat 16 (2 ^ 10 - 1)) 6).1 ax).1 :=
    rfl
  rw [hlow, add_toNat, shl_toNat, hmask]
  omega

/-- bx ends with the carry of its own shift. -/
theorem combine_high (ax bx : Word) :
    (combine ax bx).2.toNat = bx.toNat / 1024 + bx.toNat / 512 % 2 := by
  have hhigh : (combine ax bx).2 =
      if (shr bx 10).2 then (shr bx 10).1 + 1 else (shr bx 10).1 := rfl
  have hshift : (shr bx 10).1.toNat = bx.toNat / 2 ^ 10 := shr_toNat bx 10
  have hcarry : (shr bx 10).2 = decide (bx.toNat / 2 ^ 9 % 2 = 1) := shr_carry bx 10
  have hbound := bx.isLt
  rw [hhigh, hcarry]
  by_cases hbit : bx.toNat / 2 ^ 9 % 2 = 1
  · rw [decide_eq_true hbit, if_pos rfl, BitVec.toNat_add, hshift]
    have hone : (1 : Word).toNat = 1 := rfl
    omega
  · rw [decide_eq_false hbit, if_neg Bool.false_ne_true, hshift]
    omega

/-- The routine returns for every answer without carry and with kilobytes, and the kernel reads
what it returned. -/
theorem saveMemSize_eq {ax bx low high : Word} (mem : Memory)
    (h : checkMem ⟨false, ax, bx⟩ = some (low, high)) :
    ∃ mem', saveMemSize ⟨false, ax, bx⟩ mem = some mem' ∧
      bootParamMemSize mem' = low.toNat + 2 ^ 16 * high.toNat := by
  refine ⟨storeWord (storeWord mem initSegment 2 low) initSegment 4 high, ?_, ?_⟩
  · rw [saveMemSize, h, Option.map_some]
  · exact bootParamMemSize_store mem low high

theorem correct_of_checkMem {ax bx low high : Word} (mem : Memory)
    (h : checkMem ⟨false, ax, bx⟩ = some (low, high)) :
    Correct ax bx mem ↔ low.toNat + 2 ^ 16 * high.toNat = ax.toNat + 64 * bx.toNat := by
  constructor
  · rintro ⟨low', high', -, hcheck, -, hvalue, -⟩
    rw [h] at hcheck
    cases hcheck
    exact hvalue
  · intro hvalue
    obtain ⟨mem', hsave, hread⟩ := saveMemSize_eq mem h
    exact ⟨low, high, mem', h, hsave, hvalue, hread.trans hvalue⟩

/-- The high word has the carry of the addition where the bit shifted out is the same. -/
theorem combine_eq_iff (ax bx : Word) :
    (combine ax bx).1.toNat + 2 ^ 16 * (combine ax bx).2.toNat = ax.toNat + 64 * bx.toNat ↔
      (bx.getLsbD 9 = true ↔ Carries ax bx) := by
  have hax := ax.isLt
  have hbit : bx.getLsbD 9 = true ↔ bx.toNat / 512 % 2 = 1 := by
    rw [BitVec.getLsbD, Nat.testBit_eq_decide_div_mod_eq, decide_eq_true_iff]
  rw [combine_low, combine_high, hbit, Carries]
  omega

/-- Every pair of counts. -/
theorem memSize_iff (ax bx : Word) (mem : Memory) (hax : ax ≠ 0) :
    Correct ax bx mem ↔ (bx.getLsbD 9 = true ↔ Carries ax bx) := by
  by_cases hbx : bx = 0
  · have hcheck : checkMem ⟨false, ax, bx⟩ = some (ax, bx) :=
      (if_neg Bool.false_ne_true).trans ((if_neg hax).trans (if_pos hbx))
    have hlt := ax.isLt
    rw [correct_of_checkMem mem hcheck, hbx]
    simp [Carries, hlt]
  · have hcheck : checkMem ⟨false, ax, bx⟩ = some (combine ax bx) :=
      (if_neg Bool.false_ne_true).trans ((if_neg hax).trans (if_neg hbx))
    rw [correct_of_checkMem mem hcheck]
    exact combine_eq_iff ax bx

/-- 16 MB and 32 MB above. -/
theorem memSize_48MB : (0x3c00 : Word) ≠ 0 ∧ Correct 0x3c00 0x0400 (fun _ => 0) := by
  have hax : (0x3c00 : Word) ≠ 0 := by decide
  refine ⟨hax, (memSize_iff 0x3c00 0x0400 (fun _ => 0) hax).mpr ?_⟩
  unfold Carries
  decide

/-- With 0x200 blocks the bit shifted out is set though nothing was carried: 64 MB too much. -/
theorem memSize_wrong : checkMem ⟨false, 0x3c00, 0x0200⟩ = some (0xbc00, 1) ∧
    ¬Correct 0x3c00 0x0200 (fun _ => 0) := by
  have hcheck : checkMem ⟨false, 0x3c00, 0x0200⟩ = some (0xbc00, 1) := by decide
  refine ⟨hcheck, fun h => ?_⟩
  have hvalue := (correct_of_checkMem (fun _ => 0) hcheck).mp h
  exact absurd hvalue (by decide)

end RxdOs.Boot.MemSize
