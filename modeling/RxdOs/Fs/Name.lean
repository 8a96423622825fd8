/- RxdOs/Fs/Name
   source: lib/string.c, kernel/entry.asm (strncpy_from_user), fs/fs.c (_qstrcmp, path_for_each)
   digest: C strings as the path code reads them, quick strings and the path iterators. -/

import Mathlib.Data.List.TakeWhile
import RxdOs.Base.Assert

set_option autoImplicit false
set_option relaxedAutoImplicit false

namespace RxdOs.Fs.Name

open RxdOs.Base.Assert

/-- The bytes in memory from a `char *` on; every byte after the list is zero. -/
abbrev CStr := List UInt8

def charAt (str : CStr) (i : Nat) : UInt8 := str.getD i 0

/-- `'/'` -/
def slash : UInt8 := 47

def strlen (str : CStr) : Nat := (str.takeWhile (· ≠ 0)).length

def strcspn (str1 str2 : CStr) : Nat := (str1.takeWhile fun c => c ≠ 0 ∧ c ∉ str2).length

/-- The string from the last `character` on, or NULL. -/
def strrchr (character : UInt8) : CStr → Option CStr
  | [] => if character = 0 then some [] else none
  | c :: str =>
    if c = 0 then (if character = 0 then some (c :: str) else none)
    else (strrchr character str).or (if c = character then some (c :: str) else none)

/-- `(*str1 == *str2) ? 0 : ((*str1 < *str2) ? -1 : 1)`; char is signed. -/
def compareChar (c1 c2 : UInt8) : Int :=
  if c1 = c2 then 0 else if c1.toInt8 < c2.toInt8 then -1 else 1

/-- The loop of strncmp.  When num runs out the next two characters are compared as well. -/
def strncmpLoop : Nat → CStr → CStr → Int
  | 0, str1, str2 => compareChar (charAt str1 0) (charAt str2 0)
  | num + 1, str1, str2 =>
    if charAt str1 0 = charAt str2 0 ∧ charAt str1 0 ≠ 0 then
      strncmpLoop num str1.tail str2.tail
    else compareChar (charAt str1 0) (charAt str2 0)

def strncmp (str1 str2 : CStr) (num : Nat) : Int :=
  if num = 0 then 0 else strncmpLoop num str1 str2

/-- The `num` bytes strncpy leaves at its destination.  A longer source wraps num below zero,
and the padding loop then clears all of memory. -/
def strncpy (src : CStr) (num : Nat) : Kernel CStr := do
  access (strlen src ≤ num) "while (num--) *(p++) = '\\0'"
  pure (src.takeWhile (· ≠ 0))

/-- `struct qstr`: the name may go on after its first `len` characters. -/
structure QStr where
  len : Nat
  name : CStr
  deriving DecidableEq

def qstrcmp (name1 name2 : QStr) : Int :=
  if name1.len = name2.len then strncmp name1.name name2.name name1.len
  else if name1.len > name2.len then 1 else -1

/-- The first component of path_for_each and path_for_each_dir. -/
def pathFirst (path : CStr) : QStr :=
  let len := strcspn path [slash]
  ⟨if len = 0 then 1 else len, path⟩

/-- The next component of path_for_each and path_for_each_dir. -/
def pathNext (dname : QStr) : QStr :=
  let name := dname.name.drop dname.len
  let name := if charAt name 0 = slash then name.drop 1 else name
  ⟨strcspn name [slash], name⟩

/-- A kernel copy of a user string: no NUL among its characters, only zeros after them. -/
structure Pathname where
  chars : CStr
  noNul : ∀ c ∈ chars, c ≠ 0

theorem noNul_takeWhile (str : CStr) : ∀ c ∈ str.takeWhile (· ≠ 0), c ≠ 0 := fun c hc => by
  simpa using List.mem_takeWhile_imp hc

/-- KERNEL_STRING: a user string that fills the page is left without its terminator.  The page it
is copied to is never freed; alloc_page, which panics when there is none left, comes in front of
this (`sysOpenFrom`). -/
def kernelString (usrstr : CStr) : Kernel Pathname := do
  access (strlen usrstr < 4096) "strncpy_from_user(name, usrstr, PAGE_SIZE)"
  pure ⟨usrstr.takeWhile (· ≠ 0), noNul_takeWhile usrstr⟩

/-! ## Characters and lengths -/

@[simp] theorem charAt_nil (i : Nat) : charAt [] i = 0 := by simp [charAt]

theorem charAt_of_le {str : CStr} {i : Nat} (h : str.length ≤ i) : charAt str i = 0 := by
  simp [charAt, List.getElem?_eq_none h]

theorem charAt_replicate_zero (n i : Nat) : charAt (List.replicate n 0) i = 0 := by
  by_cases hi : i < n
  · simp [charAt, hi]
  · exact charAt_of_le (by simpa using hi)

theorem charAt_tail (str : CStr) (i : Nat) : charAt str.tail i = charAt str (i + 1) := by
  cases str <;> simp [charAt]

theorem strlen_of_noNul {str : CStr} (h : ∀ c ∈ str, c ≠ 0) : strlen str = str.length := by
  rw [strlen, List.takeWhile_eq_self_iff.mpr (by simpa using h)]

theorem strlen_eq_zero {str : CStr} (h : charAt str 0 = 0) : strlen str = 0 := by
  cases str with
  | nil => rfl
  | cons c str =>
    have hc : c = 0 := h
    simp [strlen, hc]

theorem strlen_eq_succ {str : CStr} (h : charAt str 0 ≠ 0) : strlen str = strlen str.tail + 1 := by
  cases str with
  | nil => simp at h
  | cons c str =>
    have hc : c ≠ 0 := h
    simp [strlen, hc]

theorem strcspn_le_length (str1 str2 : CStr) : strcspn str1 str2 ≤ str1.length :=
  (List.takeWhile_sublist _).length_le

theorem strcspn_eq_length {str1 str2 : CStr} (h : ∀ c ∈ str1, c ≠ 0 ∧ c ∉ str2) :
    strcspn str1 str2 = str1.length := by
  rw [strcspn, List.takeWhile_eq_self_iff.mpr (by simpa using h)]

theorem strncpy_ok {src dst : CStr} {num : Nat} (h : strncpy src num = .ok dst) :
    strlen src ≤ num ∧ dst = src.takeWhile (· ≠ 0) := by
  simp only [strncpy, bind_eq_ok, access_eq_ok, pure_eq_ok, Except.ok.injEq] at h
  obtain ⟨_, hle, rfl⟩ := h
  exact ⟨hle, rfl⟩

theorem kernelString_ok {usrstr : CStr} {path : Pathname} (h : kernelString usrstr = .ok path) :
    path.chars = usrstr.takeWhile (· ≠ 0) := by
  simp only [kernelString, bind_eq_ok, access_eq_ok, pure_eq_ok, Except.ok.injEq] at h
  obtain ⟨_, -, rfl⟩ := h
  rfl

/-! ## Comparing names -/

theorem compareChar_eq_zero {c1 c2 : UInt8} : compareChar c1 c2 = 0 ↔ c1 = c2 := by
  unfold compareChar
  split_ifs <;> simp_all

/-- A name that compares equal to one that ends after `num` characters ends there as well. -/
theorem strlen_le_of_strncmpLoop {num : Nat} {str1 str2 : CStr}
    (h : strncmpLoop num str1 str2 = 0) (hend : charAt str1 num = 0) : strlen str2 ≤ num := by
  induction num generalizing str1 str2 with
  | zero =>
    have heq := compareChar_eq_zero.mp h
    exact (strlen_eq_zero (heq ▸ hend)).le
  | succ num ih =>
    simp only [strncmpLoop] at h
    split_ifs at h with hgo
    · have htail := ih h (by rw [charAt_tail]; exact hend)
      rw [strlen_eq_succ (hgo.1 ▸ hgo.2)]
      omega
    · have heq := compareChar_eq_zero.mp h
      have hzero : charAt str2 0 = 0 := by
        by_contra hne
        exact hgo ⟨heq, heq ▸ hne⟩
      rw [strlen_eq_zero hzero]
      omega

theorem strncmp_head {str1 str2 : CStr} {num : Nat} (h : strncmp str1 str2 num = 0)
    (hnum : num ≠ 0) : charAt str1 0 = charAt str2 0 := by
  rw [strncmp, if_neg hnum] at h
  obtain ⟨n, rfl⟩ := Nat.exists_eq_succ_of_ne_zero hnum
  simp only [strncmpLoop] at h
  split_ifs at h with hgo
  · exact hgo.1
  · exact compareChar_eq_zero.mp h

/-- Against a name of `num` characters strncmp also compares what follows them. -/
theorem strncmpLoop_eq_zero {num : Nat} {str1 str2 : CStr} (h : ∀ i < num, charAt str1 i ≠ 0) :
    strncmpLoop num str1 str2 = 0 ↔ ∀ i ≤ num, charAt str1 i = charAt str2 i := by
  induction num generalizing str1 str2 with
  | zero =>
    rw [strncmpLoop, compareChar_eq_zero]
    constructor
    · intro heq i hi
      rw [Nat.le_zero.mp hi, heq]
    · exact fun hall => hall 0 le_rfl
  | succ num ih =>
    have hhead := h 0 (Nat.succ_pos num)
    have htail : ∀ i < num, charAt str1.tail i ≠ 0 := fun i hi => by
      rw [charAt_tail]
      exact h (i + 1) (by omega)
    simp only [strncmpLoop]
    split_ifs with hgo
    · rw [ih htail]
      simp only [charAt_tail]
      constructor
      · rintro hall (_ | i) hi
        · exact hgo.1
        · exact hall i (by omega)
      · exact fun hall i hi => hall (i + 1) (by omega)
    · rw [compareChar_eq_zero]
      constructor
      · exact fun heq => absurd ⟨heq, hhead⟩ hgo
      · exact fun hall => hall 0 (Nat.zero_le _)

theorem charAt_of_lt {str : CStr} {i : Nat} (hi : i < str.length) : charAt str i = str[i] := by
  simp [charAt, List.getElem?_eq_getElem hi]

theorem charAt_ne_zero {str : CStr} (h : ∀ c ∈ str, c ≠ 0) {i : Nat} (hi : i < str.length) :
    charAt str i ≠ 0 := by
  rw [charAt_of_lt hi]
  exact h _ (List.getElem_mem hi)

/-- A name is what it has up to and with its terminator. -/
theorem eq_of_charAt {str1 str2 : CStr} (h1 : ∀ c ∈ str1, c ≠ 0) (h2 : ∀ c ∈ str2, c ≠ 0)
    (h : ∀ i ≤ str1.length, charAt str1 i = charAt str2 i) : str1 = str2 := by
  have hle : str2.length ≤ str1.length := by
    by_contra hlt
    have hend := h str1.length le_rfl
    rw [charAt_of_le le_rfl] at hend
    exact charAt_ne_zero h2 (not_le.mp hlt) hend.symm
  have hge : str1.length ≤ str2.length := by
    by_contra hlt
    have hend := h str2.length (not_le.mp hlt).le
    rw [@charAt_of_le str2 _ le_rfl] at hend
    exact charAt_ne_zero h1 (not_le.mp hlt) hend
  refine List.ext_getElem (le_antisymm hge hle) fun i hi1 hi2 => ?_
  have hchar := h i hi1.le
  rwa [charAt_of_lt hi1, charAt_of_lt hi2] at hchar

theorem qstrcmp_eq_zero {name1 name2 : QStr} (h : qstrcmp name1 name2 = 0) :
    name1.len = name2.len ∧ strncmp name1.name name2.name name1.len = 0 := by
  unfold qstrcmp at h
  split_ifs at h with hlen hgt
  · exact ⟨hlen, h⟩
  · exact absurd h (by decide)

/-- Only a name that ends after its `len` characters compares equal to one that does. -/
theorem strlen_le_of_qstrcmp {name1 name2 : QStr} (h : qstrcmp name1 name2 = 0)
    (hend : charAt name1.name name1.len = 0) (hlen : name2.len ≠ 0) :
    strlen name2.name ≤ name2.len := by
  obtain ⟨heq, hcmp⟩ := qstrcmp_eq_zero h
  rw [heq] at hcmp hend
  rw [strncmp, if_neg hlen] at hcmp
  exact strlen_le_of_strncmpLoop hcmp hend

/-! ## The path iterators -/

theorem pathFirst_len_pos (path : CStr) : (pathFirst path).len ≠ 0 := by
  simp only [pathFirst]
  split_ifs with h
  · exact one_ne_zero
  · exact h

theorem pathFirst_len_le {path : CStr} (h : path ≠ []) : (pathFirst path).len ≤ path.length := by
  simp only [pathFirst]
  split_ifs with hz
  · exact List.length_pos_iff.mpr h
  · exact strcspn_le_length ..

/-- A path that is one name has no directory for path_for_each_dir to walk. -/
theorem pathFirst_end {path : CStr} (hnul : ∀ c ∈ path, c ≠ 0) (hslash : slash ∉ path) :
    charAt path (pathFirst path).len = 0 := by
  have hspan : strcspn path [slash] = path.length :=
    strcspn_eq_length fun c hc =>
      ⟨hnul c hc, fun hmem => hslash (List.mem_singleton.mp hmem ▸ hc)⟩
  refine charAt_of_le ?_
  simp only [pathFirst, hspan]
  split_ifs with hz
  · omega
  · exact le_rfl

/-- When the first component of a non-empty path is all of it, the path ends there. -/
theorem pathFirst_whole {path : CStr} (hnul : ∀ c ∈ path, c ≠ 0) (hne : path ≠ [])
    (hall : strlen path ≤ (pathFirst path).len) : (pathFirst path).len = path.length := by
  rw [strlen_of_noNul hnul] at hall
  exact le_antisymm (pathFirst_len_le hne) hall

theorem pathNext_of_whole {dname : QStr} (h : dname.len = dname.name.length) :
    charAt (pathNext dname).name 0 = 0 := by
  simp [pathNext, h, slash]

end RxdOs.Fs.Name
