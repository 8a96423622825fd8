/- RxdOs/Kernel/Keyboard
   source: include/keyboard.h, kernel/keyboard.c
   digest: Scan codes of set 1: key codes, and characters under the shift state. -/

import RxdOs.Base.Assert

set_option autoImplicit false
set_option relaxedAutoImplicit false

namespace RxdOs.Kernel.Keyboard

open RxdOs.Base.Assert

def nrKeys : Nat := 128

def keyAltL : Nat := 0x38
def keyShiftL : Nat := 0x2A
def keyCtrlL : Nat := 0x1D

def kbFCtrl : BitVec 32 := 0x0001
def kbFAlt : BitVec 32 := 0x0002
def kbFShift : BitVec 32 := 0x0004

/-- The KEY_ values of `keycode[NR_KEYS]`, sixteen scan codes a line; from 0x59 on the entries
are zero.  BACKSPACE (0x0E) has the code of the backslash. -/
def keycode : List Nat := [
  0x00, 0x01, 0x02, 0x03, 0x04, 0x05, 0x06, 0x07, 0x08, 0x09, 0x0A, 0x0B, 0x0C, 0x0D, 0x2B, 0x0F,
  0x10, 0x11, 0x12, 0x13, 0x14, 0x15, 0x16, 0x17, 0x18, 0x19, 0x1A, 0x1B, 0x1C, 0x1D, 0x1E, 0x1F,
  0x20, 0x21, 0x22, 0x23, 0x24, 0x25, 0x26, 0x27, 0x28, 0x29, 0x2A, 0x2B, 0x2C, 0x2D, 0x2E, 0x2F,
  0x30, 0x31, 0x32, 0x33, 0x34, 0x35, 0x00, 0x00, 0x38, 0x39, 0x3A, 0x3B, 0x3C, 0x3D, 0x3E, 0x3F,
  0x40, 0x41, 0x42, 0x43, 0x44, 0x45, 0x00, 0x00, 0x00, 0x00, 0x00, 0x00, 0x00, 0x00, 0x00, 0x00,
  0x00, 0x00, 0x00, 0x00, 0x00, 0x00, 0x00, 0x57, 0x58]

def kbKeycode (scanCode : BitVec 32) : Kernel Nat := do
  let scanCode := scanCode &&& ~~~0x80
  assert (scanCode.toInt ≥ 0 ∧ scanCode.toNat < nrKeys)
    "scan_code >= 0 && scan_code < (sizeof(keycode)/sizeof(int))"
  pure (keycode.getD scanCode.toNat 0)

/-- `ascii[NR_KEYS * 2]`, plain and shifted, four keys a line; from 0x3A on the entries are zero. -/
def ascii : List (BitVec 8) := [
  0x00, 0x00, 0x27, 0x27, 0x31, 0x21, 0x32, 0x40,  -- none, ESC, 1, 2
  0x33, 0x23, 0x34, 0x24, 0x35, 0x25, 0x36, 0x5E,  -- 3, 4, 5, 6
  0x37, 0x26, 0x38, 0x2A, 0x39, 0x28, 0x30, 0x29,  -- 7, 8, 9, 0
  0x2D, 0x5F, 0x3D, 0x2B, 0x08, 0x08, 0x09, 0x09,  -- minus, equals, BACKSPACE, TAB
  0x71, 0x51, 0x77, 0x57, 0x65, 0x45, 0x72, 0x52,  -- q, w, e, r
  0x74, 0x54, 0x79, 0x59, 0x75, 0x55, 0x69, 0x49,  -- t, y, u, i
  0x6F, 0x4F, 0x70, 0x50, 0x5B, 0x7B, 0x5D, 0x7D,  -- o, p, left bracket, right bracket
  0x00, 0x00, 0x00, 0x00, 0x61, 0x41, 0x73, 0x53,  -- RETURN, CTRL_L, a, s
  0x64, 0x44, 0x66, 0x46, 0x67, 0x47, 0x68, 0x48,  -- d, f, g, h
  0x6A, 0x4A, 0x6B, 0x4B, 0x6C, 0x4C, 0x3B, 0x3A,  -- j, k, l, semicolon
  0x27, 0x22, 0x60, 0x7E, 0x00, 0x00, 0x5C, 0x7C,  -- quote, grave, SHIFT_L, backslash
  0x7A, 0x5A, 0x78, 0x58, 0x63, 0x43, 0x76, 0x56,  -- z, x, c, v
  0x62, 0x42, 0x6E, 0x4E, 0x6D, 0x4D, 0x2C, 0x3C,  -- b, n, m, comma
  0x2E, 0x3E, 0x2F, 0x3F, 0x00, 0x00, 0x2A, 0x2A,  -- period, slash, SHIFT_R, star
  0x00, 0x00, 0x20, 0x20]                          -- ALT, space

/-- The assertion bounds scan_code by the number of characters, twice the number of keys. -/
def kbAscii (scanCode kbFlag : BitVec 32) : Kernel (BitVec 8) := do
  assert (scanCode.toInt ≥ 0 ∧ scanCode.toNat < nrKeys * 2)
    "scan_code >= 0 && scan_code < (sizeof(ascii)/sizeof(unsigned char))"
  let i := scanCode.toNat * 2 + (if kbFlag &&& kbFShift ≠ 0 then 1 else 0)
  access (i < nrKeys * 2) "ascii[scan_code * 2 + ((kb_flag & KB_F_SHIFT) ? 1 : 0)]"
  pure (ascii.getD i 0)

/-! ## Both tables over the codes a byte can be -/

variable {code : BitVec 8}

/-- The entry of a scan code, make or break. -/
def keycodeOf (code : BitVec 8) : Nat := keycode.getD (code &&& 0x7F).toNat 0

/-- kb_keycode never leaves its table on a byte. -/
theorem kbKeycode_eq (code : BitVec 8) :
    kbKeycode (code.setWidth 32) = .ok (keycodeOf code) := by
  revert code
  decide +kernel

/-- kb_ascii stays in its table on the make codes. -/
theorem kbAscii_eq (hmake : code &&& 0x80 = 0) (kbFlag : BitVec 32) :
    kbAscii (code.setWidth 32) kbFlag =
      .ok (ascii.getD (code.toNat * 2 + if kbFlag &&& kbFShift ≠ 0 then 1 else 0) 0) := by
  have hcode : ∀ code : BitVec 8, code &&& 0x80 = 0 →
      (code.setWidth 32).toInt ≥ 0 ∧ (code.setWidth 32).toNat = code.toNat ∧
        code.toNat < nrKeys := by
    decide +kernel
  obtain ⟨hnonneg, hval, hlt⟩ := hcode code hmake
  have hassert : (code.setWidth 32).toInt ≥ 0 ∧ (code.setWidth 32).toNat < nrKeys * 2 :=
    ⟨hnonneg, by omega⟩
  have hindex : (code.setWidth 32).toNat * 2 + (if kbFlag &&& kbFShift ≠ 0 then 1 else 0) <
      nrKeys * 2 := by
    split_ifs <;> omega
  simp only [kbAscii, assert_pos hassert, access_pos hindex, ok_bind, pure_eq_ok]
  rw [hval]

end RxdOs.Kernel.Keyboard
