/- RxdOs/Fs/KernelString
   source: kernel/entry.asm (strncpy_from_user), fs/fs.c (KERNEL_STRING), lib/string.c
   digest: The kernel copy of a user string has its terminator, and keeps all later scans inside
   its page, exactly when the string is shorter than the page. -/

import RxdOs.Lib.BlockCopy
import RxdOs.Fs.PathIterators

set_option autoImplicit false
set_option relaxedAutoImplicit false

namespace RxdOs.Fs.KernelString

open RxdOs.Base.Assert RxdOs.Lib.BlockCopy RxdOs.Fs.Name RxdOs.Fs.Open RxdOs.Fs.PathIterators

/-- Bytes by address: the kernel's through es, the task's through fs. -/
abbrev Bytes := Nat → UInt8

/-! ## entry.asm -/

/-- .pad_zero -/
def padZero : Nat → Bytes → Nat → Bytes
  | 0, mem, _ => mem
  | ecx + 1, mem, edi => padZero ecx (Function.update mem edi 0) (edi + 1)

/-- .loop; a NUL goes to .pad_zero with the same edi and ecx. -/
def copyLoop (user : Bytes) : Nat → Bytes → Nat → Nat → Bytes
  | 0, mem, _, _ => mem
  | ecx + 1, mem, edi, esi =>
    let al := user esi
    if al = 0 then padZero (ecx + 1) mem edi
    else copyLoop user ecx (Function.update mem edi al) (edi + 1) (esi + 1)

/-- strncpy_from_user -/
def strncpyFromUser (user : Bytes) (mem : Bytes) (kaddr uaddr count : Nat) : Bytes :=
  copyLoop user count mem kaddr uaddr

/-! ## fs.c -/

/-- KERNEL_STRING: the page at `name` afterwards. -/
def kernelString (user mem : Bytes) (name usrstr : Nat) : Page := fun i =>
  strncpyFromUser user mem name usrstr pageSize (name + i)

/-! ## What is asked of it -/

/-- A string of `n` characters in the task's memory. -/
structure IsString (user : Bytes) (usrstr n : Nat) : Prop where
  chars : ∀ i < n, user (usrstr + i) ≠ 0
  nul : user (usrstr + n) = 0

/-- Every scan from a place in the string of `n` characters, or over its components, stays in the
page.  The components are looked for behind the slash that _open and _opendir assert. -/
structure ScansInside (page : Page) (n : Nat) : Prop where
  strcspn : ∀ p ≤ n, ∀ str2, ∃ len, strcspn page p str2 = .ok len
  strlen : ∀ p ≤ n, ∃ len, strlen page p = .ok len
  strrchr : ∀ p ≤ n, ∀ character, ∃ found, strrchr page p character = .ok found
  last : ∃ dname, lastSlice page 0 = .ok dname
  forEach : page 0 = slash → ∃ visited, pathForEach page 1 = .ok visited
  forEachDir : page 0 = slash → ∃ visited, pathForEachDir page 1 = .ok visited

/-- The page holds the string cut after 4095 characters, with zeros after it. -/
structure Terminated (page : Page) (user : Bytes) (usrstr n : Nat) : Prop where
  nul : ∃ i < pageSize, page i = 0
  text : ∀ i < pageSize, page i = if i < min n (pageSize - 1) then user (usrstr + i) else 0
  scans : ScansInside page (min n (pageSize - 1))

variable {user mem : Bytes} {name usrstr n : Nat} {page : Page} {path : Pathname}

/-! ## The copy loop -/

/-- What is copied for a string of `n` characters. -/
def padded (user : Bytes) (esi n count : Nat) : CStr :=
  (List.range count).map fun i => if i < n then user (esi + i) else 0

theorem padded_succ (user : Bytes) (esi n count : Nat) :
    padded user esi (n + 1) (count + 1) = user esi :: padded user (esi + 1) n count := by
  rw [padded, List.range_succ_eq_map, List.map_cons, if_pos n.succ_pos, List.map_map]
  refine congrArg (_ :: ·) (List.map_congr_left fun i _ => ?_)
  simp only [Function.comp_apply, Nat.succ_eq_add_one, Nat.add_lt_add_iff_right,
    Nat.add_right_comm esi i 1, ← Nat.add_assoc]

theorem padded_zero (user : Bytes) (esi count : Nat) :
    padded user esi 0 count = List.replicate count 0 := by
  refine List.ext_getElem (by simp [padded]) fun i hi hi' => ?_
  simp [padded]

theorem padZero_eq (ecx : Nat) (mem : Bytes) (edi : Nat) :
    padZero ecx mem edi = stored mem edi (List.replicate ecx 0) := by
  induction ecx generalizing mem edi with
  | zero => exact stored_nil.symm
  | succ ecx ih => rw [padZero, ih, List.replicate_succ, stored_first]

theorem IsString.tail {esi : Nat} (h : IsString user esi (n + 1)) : IsString user (esi + 1) n := by
  constructor
  · intro i hi
    have hnext := h.chars (i + 1) (by omega)
    rwa [Nat.add_comm i 1, ← Nat.add_assoc] at hnext
  · have hend := h.nul
    rwa [Nat.add_comm n 1, ← Nat.add_assoc] at hend

/-- The loop ends at the count or at the NUL, and fills up what is left. -/
theorem copyLoop_eq {esi : Nat} (h : IsString user esi n) (ecx : Nat) (mem : Bytes) (edi : Nat) :
    copyLoop user ecx mem edi esi = stored mem edi (padded user esi n ecx) := by
  induction ecx generalizing n mem edi esi with
  | zero => exact stored_nil.symm
  | succ ecx ih =>
    cases n with
    | zero =>
      have hnul : user esi = 0 := h.nul
      rw [copyLoop, if_pos hnul, padZero_eq, padded_zero]
    | succ n =>
      have hchar : user esi ≠ 0 := h.chars 0 n.succ_pos
      rw [copyLoop, if_neg hchar, ih h.tail, padded_succ, stored_first]

/-- Byte for byte. -/
theorem kernelString_byte (h : IsString user usrstr n) {i : Nat} (hi : i < pageSize) :
    kernelString user mem name usrstr i = if i < n then user (usrstr + i) else 0 := by
  have hlen : i < (padded user usrstr n pageSize).length := by simpa [padded] using hi
  rw [kernelString, strncpyFromUser, copyLoop_eq h, stored_inside hlen]
  simp only [padded, List.getElem_map, List.getElem_range]

/-! ## Strings shorter than the page -/

/-- The string as a list. -/
def userText (user : Bytes) (usrstr n : Nat) : CStr :=
  (List.range n).map fun i => user (usrstr + i)

theorem userText_noNul (h : IsString user usrstr n) : ∀ c ∈ userText user usrstr n, c ≠ 0 := by
  intro c hc
  obtain ⟨i, hi, rfl⟩ := List.mem_map.mp hc
  exact h.chars i (List.mem_range.mp hi)

theorem charAt_userText (user : Bytes) (usrstr n i : Nat) :
    charAt (userText user usrstr n) i = if i < n then user (usrstr + i) else 0 := by
  by_cases hi : i < n
  · rw [if_pos hi, charAt_of_lt (by simpa [userText] using hi)]
    simp [userText]
  · rw [if_neg hi, charAt_of_le (by simpa [userText] using hi)]

/-- The page holds the path that the list model of KERNEL_STRING returns, and that model stops
for longer strings only. -/
theorem kernelString_holds (h : IsString user usrstr n) (hn : n < pageSize) :
    ∃ path, Name.kernelString (userText user usrstr n) = .ok path ∧ path.chars.length = n ∧
      Holds (kernelString user mem name usrstr) path := by
  have hnul := userText_noNul h
  have hlen : (userText user usrstr n).length = n := by simp [userText]
  have hall : (userText user usrstr n).takeWhile (· ≠ 0) = userText user usrstr n :=
    List.takeWhile_eq_self_iff.mpr (by simpa using hnul)
  have hfits : strlen (userText user usrstr n) < 4096 := by
    rw [strlen_of_noNul hnul, hlen]
    exact hn
  obtain ⟨path, hpath⟩ : ∃ path, Name.kernelString (userText user usrstr n) = .ok path := by
    rw [Name.kernelString, access_pos hfits, ok_bind]
    exact ⟨_, rfl⟩
  have hchars : path.chars = userText user usrstr n := (kernelString_ok hpath).trans hall
  refine ⟨path, hpath, by rw [hchars, hlen], by rwa [hchars, hlen], fun i hi => ?_⟩
  rw [hchars, charAt_userText, kernelString_byte h hi]

/-- strrchr stops at the NUL, wherever it starts and whatever it looks for. -/
theorem strrchrLoop_ends (h : Holds page path) (character : UInt8) {fuel p q : Nat}
    (hp : p ≤ path.chars.length) (hq : q ≤ path.chars.length)
    (hfuel : path.chars.length < p + fuel) :
    ∃ r ≤ path.chars.length, strrchrLoop page character fuel p q = .ok r := by
  have hfits := h.fits
  induction fuel generalizing p q with
  | zero => omega
  | succ fuel ih =>
    rw [strrchrLoop, h.load (by omega), ok_bind]
    have hplace : (if charAt path.chars p = character then p else q) ≤ path.chars.length := by
      split_ifs <;> assumption
    by_cases hnul : charAt path.chars p = 0
    · rw [if_pos hnul]
      exact ⟨_, hplace, rfl⟩
    · have hlt : p < path.chars.length := by
        by_contra hend
        exact hnul (charAt_of_le (not_lt.mp hend))
      rw [if_neg hnul]
      exact ih hlt hplace (by omega)

theorem strrchr_ends (h : Holds page path) {p : Nat} (hp : p ≤ path.chars.length)
    (character : UInt8) : ∃ found, strrchr page p character = .ok found := by
  have hfits := h.fits
  obtain ⟨r, hr, hloop⟩ := strrchrLoop_ends h character hp hp
    (show path.chars.length < p + (pageSize + 1) by omega)
  rw [PathIterators.strrchr, hloop, ok_bind, h.load (by omega)]
  exact ⟨_, rfl⟩

theorem Holds.scansInside (h : Holds page path) : ScansInside page path.chars.length := by
  have hstart : page 0 = slash → 1 ≤ path.chars.length := by
    intro hslash
    by_contra hempty
    rw [h.bytes 0 (by decide), charAt_of_le (by omega)] at hslash
    exact absurd hslash (by decide)
  constructor
  · exact fun p hp str2 => ⟨_, strcspn_eq h hp str2⟩
  · exact fun p hp => ⟨_, strlen_eq h hp⟩
  · exact fun p hp => strrchr_ends h hp
  · obtain ⟨dname, hlast, -⟩ := lastSlice_eq h
    exact ⟨dname, hlast⟩
  · exact fun hslash => pathForEach_ends h (hstart hslash)
  · exact fun hslash => pathForEachDir_ends h (hstart hslash) (by decide)

/-! ## Strings that fill the page -/

theorem no_nul (h : IsString user usrstr n) (hn : pageSize ≤ n) :
    ∀ i < pageSize, kernelString user mem name usrstr i ≠ 0 := by
  intro i hi
  rw [kernelString_byte h hi, if_pos (hi.trans_le hn)]
  exact h.chars i (hi.trans_le hn)

theorem scan_leaves (h : ∀ i < pageSize, page i ≠ 0) {fuel p : Nat} (hfuel : pageSize - p < fuel) :
    scan page (fun c => c = 0) fuel p = .error (.fault "*str") := by
  induction fuel generalizing p with
  | zero => omega
  | succ fuel ih =>
    rw [scan, load]
    by_cases hp : p < pageSize
    · rw [access_pos hp, ok_bind, pure_eq_ok, ok_bind, if_neg (by simpa using h p hp)]
      exact ih (by omega)
    · rw [access_eq_error.mpr ⟨hp, rfl⟩]
      rfl

/-- Without a NUL in the page strlen runs off its end. -/
theorem strlen_leaves (h : ∀ i < pageSize, page i ≠ 0) (p : Nat) :
    strlen page p = .error (.fault "*str") := by
  rw [PathIterators.strlen, scan_leaves h (by omega)]
  rfl

/-! ## Strings of every length -/

/-- Terminated exactly when the string and its NUL fit in the page. -/
theorem kernelString_iff (user mem : Bytes) (name usrstr n : Nat) (h : IsString user usrstr n) :
    Terminated (kernelString user mem name usrstr) user usrstr n ↔ n < pageSize := by
  constructor
  · intro hterm
    by_contra hlong
    obtain ⟨i, hi, hnul⟩ := hterm.nul
    exact no_nul h (not_lt.mp hlong) i hi hnul
  · intro hn
    obtain ⟨path, -, hlen, hholds⟩ := kernelString_holds h hn
    have hcut : min n (pageSize - 1) = n := by omega
    have hscans := Holds.scansInside hholds
    rw [hlen] at hscans
    refine ⟨⟨n, hn, ?_⟩, fun i hi => ?_, ?_⟩
    · rw [kernelString_byte h hn, if_neg (lt_irrefl n)]
    · rw [hcut, kernelString_byte h hi]
    · rwa [hcut]

/-- 4095 characters and a NUL. -/
theorem kernelString_longest : IsString (fun a => if a < 4095 then 97 else 0) 0 4095 ∧
    Terminated (kernelString (fun a => if a < 4095 then 97 else 0) (fun _ => 1) 0x1000 0)
      (fun a => if a < 4095 then 97 else 0) 0 4095 := by
  have hstr : IsString (fun a => if a < 4095 then 97 else 0) 0 4095 := by
    refine ⟨fun i hi => ?_, by decide⟩
    rw [Nat.zero_add, if_pos hi]
    decide
  exact ⟨hstr, (kernelString_iff _ (fun _ => 1) 0x1000 0 4095 hstr).mpr (by decide)⟩

/-- One character more: no NUL is written, and strlen leaves the page. -/
theorem kernelString_filled : IsString (fun a => if a < 4096 then 97 else 0) 0 4096 ∧
    ¬Terminated (kernelString (fun a => if a < 4096 then 97 else 0) (fun _ => 1) 0x1000 0)
      (fun a => if a < 4096 then 97 else 0) 0 4096 ∧
    strlen (kernelString (fun a => if a < 4096 then 97 else 0) (fun _ => 1) 0x1000 0) 0 =
      .error (.fault "*str") := by
  have hstr : IsString (fun a => if a < 4096 then 97 else 0) 0 4096 := by
    refine ⟨fun i hi => ?_, by decide⟩
    rw [Nat.zero_add, if_pos hi]
    decide
  have hnone := @no_nul _ (fun _ => 1) 0x1000 _ _ hstr le_rfl
  refine ⟨hstr, fun hterm => ?_, strlen_leaves hnone 0⟩
  obtain ⟨i, hi, hnul⟩ := hterm.nul
  exact hnone i hi hnul

end RxdOs.Fs.KernelString
