/- RxdOs/Libk/Str
   source: lib/string.c (memcpy, memmove, strcpy, strlen, strncpy), include/type.h
   digest: Strings, and the copying functions of string.c on memory: memmove over every position
   of its two regions, and the window strncpy writes. -/

import RxdOs.Fs.Name
import RxdOs.Lib.BlockCopy

set_option autoImplicit false
set_option relaxedAutoImplicit false

namespace RxdOs.Libk.Str

open RxdOs.Base.Assert RxdOs.Lib.BlockCopy

/-- The byte at every address; no object reaches the end of the address space. -/
abbrev Memory := Nat → UInt8

/-- A string: its characters, without the NUL that ends it. -/
structure Text where
  chars : List UInt8
  noNul : ∀ c ∈ chars, c ≠ 0

def Text.append (s t : Text) : Text where
  chars := s.chars ++ t.chars
  noNul c hc := (List.mem_append.mp hc).elim (s.noNul c) (t.noNul c)

/-- `do { *(dst++) = *(src++); } while (--num)` -/
def copyUp (mem : Memory) (dst src : Nat) : Nat → Memory
  | 0 => mem
  | num + 1 => copyUp (Function.update mem dst (mem src)) (dst + 1) (src + 1) num

/-- `do { *(--dst) = *(--src); } while (--num)` -/
def copyDown (mem : Memory) (dst src : Nat) : Nat → Memory
  | 0 => mem
  | num + 1 => copyDown (Function.update mem (dst - 1) (mem (src - 1))) (dst - 1) (src - 1) num

/-- memcpy, with the pointer it returns. -/
def memcpy (mem : Memory) (dst src : Nat) (num : UInt32) : Kernel (Memory × Nat) := do
  assert (dst ≠ 0) "_dst != NULL"
  assert (src ≠ 0) "_src != NULL"
  assert (dst + num.toNat ≤ src ∨ dst ≥ src + num.toNat)
    "(dst + num) <= src || dst >= (src + num)"
  if num ≠ 0 ∧ dst ≠ src then pure (copyUp mem dst src num.toNat, dst) else pure (mem, dst)

/-- memmove, with the pointer it returns. -/
def memmove (mem : Memory) (dst src : Nat) (num : UInt32) : Kernel (Memory × Nat) := do
  assert (dst ≠ 0) "_dst != NULL"
  assert (src ≠ 0) "_src != NULL"
  if num = 0 ∨ dst = src then pure (mem, dst)
  else if dst > src then
    pure (copyDown mem (dst + num.toNat) (src + num.toNat) num.toNat, dst)
  else memcpy mem dst src num

/-- `while (*src != '\0' && num--) *(p++) = *(src++);` with `p` and `num` where it ends: when it
is num that ends the loop, the decrement takes it below zero. -/
def strncpyLoop (mem : Memory) (p src : Nat) : Nat → Memory × Nat × Nat
  | 0 => if mem src ≠ 0 then (mem, p, 2 ^ 32 - 1) else (mem, p, 0)
  | num + 1 =>
    if mem src ≠ 0 then strncpyLoop (Function.update mem p (mem src)) (p + 1) (src + 1) num
    else (mem, p, num + 1)

/-- `while (num--) *(p++) = '\0';` with `p` where it ends. -/
def padLoop (mem : Memory) (p : Nat) : Nat → Memory × Nat
  | 0 => (mem, p)
  | num + 1 => padLoop (Function.update mem p 0) (p + 1) num

/-- strncpy; beside the memory, the end `p` of what it wrote. -/
def strncpy (mem : Memory) (dst src : Nat) (num : UInt32) : Kernel (Memory × Nat) := do
  assert (dst ≠ 0) "dst != NULL"
  assert (src ≠ 0) "src != NULL"
  let (mem, p, num) := strncpyLoop mem dst src num.toNat
  pure (padLoop mem p num)

/-- `while (*p != '\0') ++p;` counted; no string is longer than the address space. -/
def strlenLoop (mem : Memory) (p : Nat) : Nat → Nat
  | 0 => 0
  | fuel + 1 => if mem p ≠ 0 then strlenLoop mem (p + 1) fuel + 1 else 0

def strlen (mem : Memory) (str : Nat) : Kernel Nat := do
  assert (str ≠ 0) "str != NULL"
  pure (strlenLoop mem str (2 ^ 32))

/-- `while (*src != '\0') *(p++) = *(src++);` and `*p = '\0'`; the source lies elsewhere. -/
def strcpyLoop (mem : Memory) (p : Nat) : List UInt8 → Memory
  | [] => Function.update mem p 0
  | c :: src => strcpyLoop (Function.update mem p c) (p + 1) src

/-- strcpy of a string that has an address. -/
def strcpy (mem : Memory) (dst : Nat) (src : Text) : Kernel Memory := do
  assert (dst ≠ 0) "dst != NULL"
  pure (strcpyLoop mem dst src.chars)

/-! ## Copying -/

section Copy

variable {mem : Memory} {dst src n : Nat} {num : UInt32}

theorem toNat_eq_zero : num.toNat = 0 ↔ num = 0 := by
  rw [← UInt32.toNat_inj, UInt32.toNat_zero]

theorem copyUp_eq (h : dst ≤ src ∨ src + n ≤ dst) : copyUp mem dst src n = copied mem dst src n := by
  induction n generalizing mem dst src with
  | zero => rw [copied_zero, copyUp]
  | succ n ih => rw [copyUp, ih (by omega), copied_first mem (by omega)]

theorem copyDown_eq (h : src ≤ dst) :
    copyDown mem (dst + n) (src + n) n = copied mem dst src n := by
  induction n generalizing mem with
  | zero => rw [copied_zero, copyDown]
  | succ n ih =>
    show copyDown (Function.update mem (dst + n) (mem (src + n))) (dst + n) (src + n) n = _
    rw [ih, copied_last mem h]

theorem memcpy_eq (hdst : dst ≠ 0) (hsrc : src ≠ 0)
    (hapart : dst + num.toNat ≤ src ∨ src + num.toNat ≤ dst) :
    memcpy mem dst src num = .ok (copied mem dst src num.toNat, dst) := by
  rw [memcpy, assert_pos hdst, assert_pos hsrc, assert_pos hapart]
  simp only [ok_bind]
  split_ifs with hgo
  · rw [copyUp_eq (by omega)]
    rfl
  · have hidle : num.toNat = 0 ∨ dst = src := by
      rw [toNat_eq_zero]
      tauto
    rcases hidle with hzero | rfl
    · rw [hzero, copied_zero]
      rfl
    · rw [copied_self]
      rfl

/-- An overlap that memmove leaves to memcpy trips over its assertion. -/
theorem memcpy_overlap (hdst : dst ≠ 0) (hsrc : src ≠ 0)
    (hlap : dst < src + num.toNat ∧ src < dst + num.toNat) : memcpy mem dst src num =
      .error (.assertFailed "(dst + num) <= src || dst >= (src + num)") := by
  have hno : ¬(dst + num.toNat ≤ src ∨ dst ≥ src + num.toNat) := by omega
  rw [memcpy, assert_pos hdst, assert_pos hsrc]
  simp only [ok_bind, assert, if_neg hno, error_bind]

theorem memmove_eq (hdst : dst ≠ 0) (hsrc : src ≠ 0)
    (h : ¬(dst < src ∧ src < dst + num.toNat)) :
    memmove mem dst src num = .ok (copied mem dst src num.toNat, dst) := by
  rw [memmove, assert_pos hdst, assert_pos hsrc]
  simp only [ok_bind]
  split_ifs with hidle hdown
  · rcases hidle with rfl | rfl
    · rw [UInt32.toNat_zero, copied_zero]
      rfl
    · rw [copied_self]
      rfl
  · rw [copyDown_eq hdown.le]
    rfl
  · exact memcpy_eq hdst hsrc (by omega)

end Copy

/-! ## memmove -/

/-- memmove returns its destination, which holds what the source held, and nothing else changes. -/
def Moves (mem : Memory) (dst src : Nat) (num : UInt32) : Prop :=
  ∃ mem', memmove mem dst src num = .ok (mem', dst) ∧
    (∀ i < num.toNat, mem' (dst + i) = mem (src + i)) ∧
    ∀ a, a < dst ∨ dst + num.toNat ≤ a → mem' a = mem a

/-- memmove is right unless its destination lies below its source and reaches into it. -/
theorem memmove_correct_iff {mem : Memory} {dst src : Nat} {num : UInt32} (hdst : dst ≠ 0)
    (hsrc : src ≠ 0) : Moves mem dst src num ↔ ¬(dst < src ∧ src < dst + num.toNat) := by
  constructor
  · rintro ⟨mem', hmove, -⟩ ⟨hlt, hlap⟩
    have hnum : ¬(num = 0 ∨ dst = src) := by
      rw [← toNat_eq_zero]
      omega
    rw [memmove, assert_pos hdst, assert_pos hsrc] at hmove
    simp only [ok_bind, if_neg hnum, if_neg (show ¬dst > src by omega)] at hmove
    rw [memcpy_overlap hdst hsrc (by omega)] at hmove
    cases hmove
  · intro h
    exact ⟨_, memmove_eq hdst hsrc h, fun i hi => copied_inside hi, fun a ha => copied_outside ha⟩

theorem memmove_upwards : Moves (fun a => UInt8.ofNat a) 2 1 2 :=
  (memmove_correct_iff (by decide) (by decide)).mpr (by decide)

/-- Two bytes moved down by one. -/
theorem memmove_downwards : ¬Moves (fun a => UInt8.ofNat a) 1 2 2 := by
  rintro ⟨mem', hmove, -⟩
  rw [memmove, assert_pos (by decide), assert_pos (by decide)] at hmove
  simp only [ok_bind, if_neg (show ¬((2 : UInt32) = 0 ∨ 1 = 2) by decide),
    if_neg (show ¬1 > 2 by decide)] at hmove
  rw [memcpy_overlap (by decide) (by decide) (by decide)] at hmove
  cases hmove

/-! ## strncpy -/

/-- A string of `len` characters. -/
def Terminated (mem : Memory) (str len : Nat) : Prop :=
  (∀ i < len, mem (str + i) ≠ 0) ∧ mem (str + len) = 0

theorem strcpyLoop_eq (mem : Memory) (p : Nat) (src : List UInt8) :
    strcpyLoop mem p src = stored mem p (src ++ [0]) := by
  induction src generalizing mem p with
  | nil => rw [strcpyLoop, List.nil_append, stored_single]
  | cons c src ih => rw [strcpyLoop, ih, stored_first, List.cons_append]

theorem strcpy_eq (mem : Memory) {dst : Nat} (hdst : dst ≠ 0) (src : Text) :
    strcpy mem dst src = .ok (stored mem dst (src.chars ++ [0])) := by
  rw [strcpy, assert_pos hdst, ok_bind, strcpyLoop_eq]
  rfl

theorem strlenLoop_eq {mem : Memory} {str len fuel : Nat} (h : Terminated mem str len)
    (hlen : len < fuel) : strlenLoop mem str fuel = len := by
  induction len generalizing str fuel with
  | zero =>
    obtain ⟨fuel, rfl⟩ := Nat.exists_eq_add_of_le' hlen
    have hend : mem str = 0 := h.2
    rw [strlenLoop, if_neg (not_not.mpr hend)]
  | succ len ih =>
    obtain ⟨fuel, rfl⟩ := Nat.exists_eq_add_of_le' (Nat.one_le_of_lt hlen)
    have hshift : ∀ i, str + 1 + i = str + (i + 1) := fun i => by omega
    have htail : Terminated mem (str + 1) len := by
      refine ⟨fun i hi => ?_, ?_⟩
      · rw [hshift]
        exact h.1 (i + 1) (by omega)
      · rw [hshift]
        exact h.2
    have hhead : mem str ≠ 0 := h.1 0 (Nat.succ_pos len)
    rw [strlenLoop, if_pos hhead, ih htail (by omega)]

theorem strlen_eq {mem : Memory} {str len : Nat} (hstr : str ≠ 0) (h : Terminated mem str len)
    (hlen : len < 2 ^ 32) : strlen mem str = .ok len := by
  rw [strlen, assert_pos hstr, ok_bind, strlenLoop_eq h hlen]
  rfl

/-- A stored string ends where its characters do. -/
theorem terminated_stored (mem : Memory) (str : Nat) (s : Text) :
    Terminated (stored mem str (s.chars ++ [0])) str s.chars.length := by
  have hlen : (s.chars ++ [0]).length = s.chars.length + 1 := by simp
  refine ⟨fun i hi => ?_, ?_⟩
  · rw [stored_inside (by omega), List.getElem_append_left hi]
    exact s.noNul _ (List.getElem_mem hi)
  · rw [stored_inside (by omega), List.getElem_append_right le_rfl]
    simp

/-- The string at `str` consists of these characters. -/
def IsString (mem : Memory) (str : Nat) (chars : List UInt8) : Prop :=
  Terminated mem str chars.length ∧ ∀ i (h : i < chars.length), mem (str + i) = chars[i]

theorem isString_stored (mem : Memory) (str : Nat) (s : Text) :
    IsString (stored mem str (s.chars ++ [0])) str s.chars := by
  refine ⟨terminated_stored mem str s, fun i hi => ?_⟩
  rw [stored_inside (by rw [List.length_append]; omega), List.getElem_append_left hi]

theorem Terminated.unique {mem : Memory} {str len len' : Nat} (h : Terminated mem str len)
    (h' : Terminated mem str len') : len = len' := by
  rcases lt_trichotomy len len' with hlt | heq | hgt
  · exact absurd h.2 (h'.1 len hlt)
  · exact heq
  · exact absurd h'.2 (h.1 len' hgt)

theorem IsString.unique {mem : Memory} {str : Nat} {chars chars' : List UInt8}
    (h : IsString mem str chars) (h' : IsString mem str chars') : chars = chars' := by
  refine List.ext_getElem (h.1.unique h'.1) fun i hi hi' => ?_
  rw [← h.2 i hi, ← h'.2 i hi']

/-- The `num` bytes written up to `p`: the characters of the source, then zeros. -/
structure Windowed (mem mem' : Memory) (dst src len num p : Nat) : Prop where
  count : p = dst + num
  chars : ∀ i < min num len, mem' (dst + i) = mem (src + i)
  zeros : ∀ i, min num len ≤ i → i < num → mem' (dst + i) = 0
  frame : ∀ a, a < dst ∨ dst + num ≤ a → mem' a = mem a

def WritesWindow (mem : Memory) (dst src len : Nat) (num : UInt32) : Prop :=
  ∃ mem' p, strncpy mem dst src num = .ok (mem', p) ∧ Windowed mem mem' dst src len num.toNat p

section Strncpy

variable {mem : Memory} {dst src len n num : Nat}

theorem padLoop_eq (mem : Memory) (p num : Nat) : padLoop mem p num = (filled mem p num 0, p + num) := by
  induction num generalizing mem p with
  | zero => rw [filled_zero, padLoop, Nat.add_zero]
  | succ num ih => rw [padLoop, ih, filled_first, Nat.add_right_comm, Nat.add_assoc]

theorem strncpyLoop_stop (p : Nat) (h : mem src = 0) :
    strncpyLoop mem p src num = (mem, p, num) := by
  cases num <;> simp [strncpyLoop, h]

/-- While the source has characters and no write lands on the ones still to be read, the loop
copies them. -/
theorem strncpyLoop_copies (hn : n ≤ num) (hchars : ∀ i < n, mem (src + i) ≠ 0)
    (hapart : dst ≤ src ∨ src + n ≤ dst) :
    strncpyLoop mem dst src num =
      strncpyLoop (copied mem dst src n) (dst + n) (src + n) (num - n) := by
  induction n generalizing mem dst src num with
  | zero => rw [copied_zero, Nat.add_zero, Nat.add_zero, Nat.sub_zero]
  | succ n ih =>
    obtain ⟨num, rfl⟩ := Nat.exists_eq_add_of_le' (Nat.one_le_of_lt hn)
    have hhead : mem src ≠ 0 := hchars 0 (Nat.succ_pos n)
    have htail : ∀ i < n, Function.update mem dst (mem src) (src + 1 + i) ≠ 0 := by
      intro i hi
      rw [Function.update_of_ne (by omega), Nat.add_assoc, Nat.add_comm 1 i]
      exact hchars (i + 1) (by omega)
    rw [strncpyLoop, if_pos hhead, ih (by omega) htail (by omega), copied_first mem (by omega)]
    congr 1 <;> omega

/-- A destination inside the source string puts characters over its terminator: only num ends
the loop. -/
theorem strncpyLoop_smear {k : Nat} (hk : 0 < k) (hchars : ∀ i < k, mem (src + i) ≠ 0) :
    ∃ mem', strncpyLoop mem (src + k) src num = (mem', src + k + num, 2 ^ 32 - 1) := by
  have hhead : mem src ≠ 0 := hchars 0 hk
  induction num generalizing mem src with
  | zero => exact ⟨mem, by rw [strncpyLoop, if_pos hhead, Nat.add_zero]⟩
  | succ num ih =>
    have hnext : ∀ i < k, Function.update mem (src + k) (mem src) (src + 1 + i) ≠ 0 := by
      intro i hi
      by_cases hlast : i + 1 = k
      · rw [show src + 1 + i = src + k by omega, Function.update_self]
        exact hhead
      · rw [Function.update_of_ne (by omega), Nat.add_assoc, Nat.add_comm 1 i]
        exact hchars (i + 1) (by omega)
    obtain ⟨mem', hmem'⟩ := ih hnext (hnext 0 hk)
    refine ⟨mem', ?_⟩
    rw [strncpyLoop, if_pos hhead, show src + k + 1 = src + 1 + k by omega, hmem']
    congr 2
    omega

theorem strncpy_eq (hdst : dst ≠ 0) (hsrc : src ≠ 0) (num : UInt32) :
    strncpy mem dst src num =
      .ok (padLoop (strncpyLoop mem dst src num.toNat).1 (strncpyLoop mem dst src num.toNat).2.1
        (strncpyLoop mem dst src num.toNat).2.2) := by
  rw [strncpy, assert_pos hdst, assert_pos hsrc]
  rfl

/-- The source ends before num does. -/
theorem strncpy_short {num : UInt32} (hdst : dst ≠ 0) (hsrc : src ≠ 0)
    (hstr : Terminated mem src len) (hlen : len ≤ num.toNat) (hapart : dst ≤ src ∨ src + len < dst) :
    strncpy mem dst src num =
      .ok (filled (copied mem dst src len) (dst + len) (num.toNat - len) 0, dst + num.toNat) := by
  have hend : copied mem dst src len (src + len) = 0 := by
    rw [copied_outside (by omega)]
    exact hstr.2
  rw [strncpy_eq hdst hsrc, strncpyLoop_copies hlen hstr.1 (by omega), strncpyLoop_stop _ hend,
    padLoop_eq]
  refine congrArg Except.ok (Prod.ext rfl ?_)
  show dst + len + (num.toNat - len) = dst + num.toNat
  omega

/-- When num ends the first loop, the second one writes almost all of the address space. -/
theorem strncpyLoop_wraps (hstr : Terminated mem src len)
    (h : num < len ∨ src < dst ∧ dst ≤ src + len) :
    ∃ mem', strncpyLoop mem dst src num = (mem', dst + num, 2 ^ 32 - 1) := by
  by_cases hlap : src < dst ∧ dst ≤ src + len
  · obtain ⟨k, rfl⟩ := Nat.exists_eq_add_of_le hlap.1.le
    exact strncpyLoop_smear (by omega) fun i hi => hstr.1 i (by omega)
  · have hnum : num < len := h.resolve_right hlap
    have hmore : copied mem dst src num (src + num) ≠ 0 := by
      rw [copied_outside (by omega)]
      exact hstr.1 num hnum
    refine ⟨copied mem dst src num, ?_⟩
    rw [strncpyLoop_copies le_rfl (fun i hi => hstr.1 i (by omega)) (by omega), Nat.sub_self,
      strncpyLoop, if_pos hmore]

/-- strncpy writes its window exactly when the string ends within num characters and the
destination does not begin inside it. -/
theorem strncpy_window_iff {num : UInt32} (hdst : dst ≠ 0) (hsrc : src ≠ 0)
    (hstr : Terminated mem src len) : WritesWindow mem dst src len num ↔
      len ≤ num.toNat ∧ (dst ≤ src ∨ src + len < dst) := by
  constructor
  · rintro ⟨mem', p, hcopy, hwin⟩
    by_contra hbad
    have hwraps : num.toNat < len ∨ src < dst ∧ dst ≤ src + len := by omega
    obtain ⟨mem'', hloop⟩ := strncpyLoop_wraps hstr hwraps
    rw [strncpy_eq hdst hsrc, hloop, padLoop_eq] at hcopy
    have hend : dst + num.toNat + (2 ^ 32 - 1) = p := congrArg Prod.snd (Except.ok.inj hcopy)
    have hcount := hwin.count
    omega
  · rintro ⟨hlen, hapart⟩
    refine ⟨_, _, strncpy_short hdst hsrc hstr hlen hapart, rfl, fun i hi => ?_, fun i hi hin => ?_,
      fun a ha => ?_⟩
    · rw [filled_outside (by omega), copied_inside (by omega)]
    · obtain ⟨j, rfl⟩ := Nat.exists_eq_add_of_le (show len ≤ i by omega)
      rw [← Nat.add_assoc, filled_inside (by omega)]
    · rw [filled_outside (by omega), copied_outside (by omega)]

end Strncpy

theorem strncpy_window_nonempty :
    WritesWindow (fun a => if a < 3 then UInt8.ofNat a else 0) 10 1 2 4 :=
  (strncpy_window_iff (by decide) (by decide) ⟨by decide, by decide⟩).mpr (by decide)

/-- Two characters into a window of one. -/
theorem strncpy_runs_on : Terminated (fun a => if a < 3 then UInt8.ofNat a else 0) 1 2 ∧
    ¬WritesWindow (fun a => if a < 3 then UInt8.ofNat a else 0) 10 1 2 1 := by
  have hstr : Terminated (fun a => if a < 3 then UInt8.ofNat a else 0) 1 2 :=
    ⟨by decide, by decide⟩
  refine ⟨hstr, ?_⟩
  rintro ⟨mem', p, hcopy, hwin⟩
  obtain ⟨mem'', hloop⟩ : ∃ mem'', strncpyLoop _ 10 1 1 = (mem'', 10 + 1, 2 ^ 32 - 1) :=
    strncpyLoop_wraps hstr (.inl (by decide))
  rw [strncpy_eq (by decide) (by decide), UInt32.toNat_one, hloop, padLoop_eq] at hcopy
  have hend : 10 + 1 + (2 ^ 32 - 1) = p := congrArg Prod.snd (Except.ok.inj hcopy)
  have hcount : p = 10 + 1 := hwin.count
  omega

/-! ## The list model -/

section Lists

open RxdOs.Fs.Name (CStr charAt charAt_nil strlen_eq_zero strlen_eq_succ charAt_of_lt
  charAt_of_le strncpy_ok)

theorem charAt_strlen (str : CStr) :
    (∀ i < Fs.Name.strlen str, charAt str i ≠ 0) ∧ charAt str (Fs.Name.strlen str) = 0 := by
  induction str with
  | nil => exact ⟨fun i hi => absurd hi (Nat.not_lt_zero i), charAt_nil _⟩
  | cons c str ih =>
    by_cases hc : charAt (c :: str) 0 = 0
    · rw [strlen_eq_zero hc]
      exact ⟨fun i hi => absurd hi (Nat.not_lt_zero i), hc⟩
    · rw [strlen_eq_succ hc, List.tail_cons]
      refine ⟨fun i hi => ?_, ih.2⟩
      cases i with
      | zero => exact hc
      | succ i => exact ih.1 i (by omega)

theorem charAt_chars {str : CStr} {i : Nat} (hi : i < Fs.Name.strlen str) :
    charAt (str.takeWhile (· ≠ 0)) i = charAt str i := by
  have hprefix := List.takeWhile_prefix (l := str) (fun c : UInt8 => decide (c ≠ 0))
  rw [charAt_of_lt hi, charAt_of_lt (hi.trans_le hprefix.length_le)]
  exact hprefix.getElem hi

/-- What the path code keeps of a strncpy is what it leaves in memory. -/
theorem strncpy_name {mem : Memory} {dst src : Nat} {num : UInt32} {str name : CStr}
    (hdst : dst ≠ 0) (hsrc : src ≠ 0)
    (hstr : ∀ i ≤ Fs.Name.strlen str, mem (src + i) = charAt str i)
    (hname : Fs.Name.strncpy str num.toNat = .ok name)
    (hapart : dst ≤ src ∨ src + Fs.Name.strlen str < dst) :
    ∃ mem' p, strncpy mem dst src num = .ok (mem', p) ∧
      ∀ i < num.toNat, mem' (dst + i) = charAt name i := by
  obtain ⟨hlen, rfl⟩ := strncpy_ok hname
  have hterm : Terminated mem src (Fs.Name.strlen str) := by
    refine ⟨fun i hi => ?_, ?_⟩
    · rw [hstr i hi.le]
      exact (charAt_strlen str).1 i hi
    · rw [hstr _ le_rfl]
      exact (charAt_strlen str).2
  obtain ⟨mem', p, hcopy, hwin⟩ := (strncpy_window_iff hdst hsrc hterm).mpr ⟨hlen, hapart⟩
  refine ⟨mem', p, hcopy, fun i hi => ?_⟩
  by_cases hin : i < Fs.Name.strlen str
  · rw [hwin.chars i (by omega), hstr i hin.le, charAt_chars hin]
  · rw [hwin.zeros i (by omega) hi, charAt_of_le (not_lt.mp hin)]

end Lists

end RxdOs.Libk.Str
