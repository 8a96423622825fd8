/- RxdOs/Fs/PathIterators
   source: fs/fs.c (path_for_each, path_for_each_dir, sys_open), lib/string.c
   digest: The path iterators and the search for the last component on the page that holds the
   path: they cut it at the same places, and no pointer leaves the page. -/

import RxdOs.Fs.PathResolution

set_option autoImplicit false
set_option relaxedAutoImplicit false

namespace RxdOs.Fs.PathIterators

open RxdOs.Base.Assert RxdOs.Fs.Name RxdOs.Fs.Open RxdOs.Fs.DentryCache RxdOs.Fs.PathResolution

def pageSize : Nat := 4096

/-- The bytes from the page's first one on; a pointer into it is an offset. -/
abbrev Page := Nat → UInt8

/-- `*str`, for a pointer into the page. -/
def load (page : Page) (str : Nat) : Kernel UInt8 := do
  access (str < pageSize) "*str"
  pure (page str)

/-! ## string.c -/

/-- The pointer to the first character from `str` on that `stop` holds of. -/
def scan (page : Page) (stop : UInt8 → Bool) : Nat → Nat → Kernel Nat
  | 0, _ => .error (.fault "++str")
  | fuel + 1, str => do
    let c ← load page str
    if stop c then pure str else scan page stop fuel (str + 1)

/-- The table T of strcspn has the characters of `str2` and the NUL. -/
def strcspn (page : Page) (str1 : Nat) (str2 : CStr) : Kernel Nat := do
  let p ← scan page (fun c => c = 0 ∨ c ∈ str2) (pageSize + 1) str1
  pure (p - str1)

def strlen (page : Page) (str : Nat) : Kernel Nat := do
  let p ← scan page (fun c => c = 0) (pageSize + 1) str
  pure (p - str)

/-- The loop of strrchr, with the comparison of the NUL after it. -/
def strrchrLoop (page : Page) (character : UInt8) : Nat → Nat → Nat → Kernel Nat
  | 0, _, _ => .error (.fault "++str")
  | fuel + 1, str, p => do
    let c ← load page str
    let p := if c = character then str else p
    if c = 0 then pure p else strrchrLoop page character fuel (str + 1) p

def strrchr (page : Page) (cstr : Nat) (character : UInt8) : Kernel (Option Nat) := do
  let p ← strrchrLoop page character (pageSize + 1) cstr cstr
  let c ← load page p
  pure (if c = character then some p else none)

/-! ## fs.c -/

/-- `struct qstr`, with the pointer. -/
structure Slice where
  name : Nat
  len : Nat
  deriving DecidableEq

/-- What both for headers start with. -/
def firstSlice (page : Page) (path : Nat) : Kernel Slice := do
  let len ← strcspn page path [slash]
  pure ⟨path, if len ≠ 0 then len else 1⟩

/-- What both for headers end with. -/
def nextSlice (page : Page) (dname : Slice) : Kernel Slice := do
  let name := dname.name + dname.len
  let c ← load page name
  let name := name + if c = slash then 1 else 0
  let len ← strcspn page name [slash]
  pure ⟨name, len⟩

/-- `*(dname)->name` -/
def atName (page : Page) (dname : Slice) : Kernel Bool := do
  let c ← load page dname.name
  pure (c ≠ 0)

/-- `*((dname)->name + (dname)->len)` -/
def atEnd (page : Page) (dname : Slice) : Kernel Bool := do
  let c ← load page (dname.name + dname.len)
  pure (c ≠ 0)

/-- The slices the body of the loop sees. -/
def forEach (page : Page) (test : Slice → Kernel Bool) : Nat → Slice → Kernel (List Slice)
  | 0, _ => .error (.fault "for")
  | fuel + 1, dname => do
    let go ← test dname
    if go then do
      let next ← nextSlice page dname
      let visited ← forEach page test fuel next
      pure (dname :: visited)
    else pure []

def pathForEach (page : Page) (path : Nat) : Kernel (List Slice) := do
  let dname ← firstSlice page path
  forEach page (atName page) (pageSize + 1) dname

def pathForEachDir (page : Page) (path : Nat) : Kernel (List Slice) := do
  let dname ← firstSlice page path
  forEach page (atEnd page) (pageSize + 1) dname

/-- filename in sys_open -/
def lastSlice (page : Page) (pathname : Nat) : Kernel Slice := do
  let name ← strrchr page pathname slash
  let name := match name with
    | none => pathname
    | some name => name + 1
  let len ← strlen page name
  pure ⟨name, len⟩

/-! ## The page of a path -/

/-- The page holds the path from its first byte on, and zeros after it. -/
structure Holds (page : Page) (path : Pathname) : Prop where
  fits : path.chars.length < pageSize
  bytes : ∀ i < pageSize, page i = charAt path.chars i

/-- The characters of a slice. -/
def text (page : Page) (dname : Slice) : CStr :=
  (List.range dname.len).map fun i => page (dname.name + i)

/-- The slices of components that follow each other from `name` on, one slash apart. -/
def slices : Nat → List CStr → List Slice
  | _, [] => []
  | name, c :: cs => ⟨name, c.length⟩ :: slices (name + c.length + 1) cs

variable {page : Page} {path : Pathname} {c : CStr} {cs : List CStr}

theorem Holds.load (h : Holds page path) {i : Nat} (hi : i < pageSize) :
    load page i = .ok (charAt path.chars i) := by
  rw [PathIterators.load, access_pos hi, ok_bind, h.bytes i hi]
  rfl

theorem charAt_drop (str : CStr) (n i : Nat) : charAt (str.drop n) i = charAt str (n + i) := by
  simp only [charAt, List.getD_eq_getElem?_getD, List.getElem?_drop]

theorem drop_succ {str rest : CStr} {n : Nat} {x : UInt8} (h : str.drop n = x :: rest) :
    str.drop (n + 1) = rest := by
  rw [← List.drop_drop, h, List.drop_one, List.tail_cons]

theorem charAt_of_drop {str rest : CStr} {n : Nat} (h : str.drop n = rest) :
    charAt str n = charAt rest 0 := by
  rw [← h, charAt_drop, Nat.add_zero]

/-- A scan that stops at the NUL goes over what a list search takes. -/
theorem scan_eq (h : Holds page path) {stop : UInt8 → Bool} (hstop : stop 0 = true) {str : CStr}
    {p fuel : Nat} (hdrop : path.chars.drop p = str) (hp : p ≤ path.chars.length)
    (hfuel : str.length < fuel) :
    scan page stop fuel p = .ok (p + (str.takeWhile fun c => !stop c).length) := by
  have hfits := h.fits
  induction str generalizing p fuel with
  | nil =>
    cases fuel with
    | zero => cases hfuel
    | succ fuel =>
      rw [scan, h.load (by omega), charAt_of_drop hdrop, ok_bind, charAt_nil, hstop]
      rfl
  | cons x str ih =>
    cases fuel with
    | zero => cases hfuel
    | succ fuel =>
      have hlen := congrArg List.length hdrop
      rw [List.length_drop, List.length_cons] at hlen
      rw [List.length_cons] at hfuel
      rw [scan, h.load (by omega), charAt_of_drop hdrop, ok_bind,
        show charAt (x :: str) 0 = x from rfl]
      cases hx : stop x with
      | true =>
        rw [List.takeWhile_cons_of_neg (by simp [hx])]
        rfl
      | false =>
        rw [List.takeWhile_cons_of_pos (by simp [hx]), List.length_cons, if_neg Bool.false_ne_true,
          ih (drop_succ hdrop) (by omega) (by omega)]
        congr 1
        omega

/-- strcspn on the page is strcspn on the rest of the path. -/
theorem strcspn_eq (h : Holds page path) {p : Nat} (hp : p ≤ path.chars.length) (str2 : CStr) :
    strcspn page p str2 = .ok (Name.strcspn (path.chars.drop p) str2) := by
  have hfits := h.fits
  have hstop : (fun c : UInt8 => decide (c = 0 ∨ c ∈ str2)) 0 = true := by
    simp
  have hlong : (path.chars.drop p).length < pageSize + 1 := by
    rw [List.length_drop]
    omega
  rw [strcspn, scan_eq h hstop rfl hp hlong, ok_bind, Nat.add_sub_cancel_left, Name.strcspn]
  simp only [← decide_not, not_or]
  rfl

theorem strlen_eq (h : Holds page path) {p : Nat} (hp : p ≤ path.chars.length) :
    strlen page p = .ok (Name.strlen (path.chars.drop p)) := by
  have hfits := h.fits
  have hstop : (fun c : UInt8 => decide (c = 0)) 0 = true := by
    simp
  have hlong : (path.chars.drop p).length < pageSize + 1 := by
    rw [List.length_drop]
    omega
  rw [strlen, scan_eq h hstop rfl hp hlong, ok_bind, Nat.add_sub_cancel_left, Name.strlen]
  simp only [← decide_not]
  rfl

/-- The last place the loop keeps is where the list search ends. -/
theorem strrchrLoop_eq (h : Holds page path) {character : UInt8} (hc : character ≠ 0) {str : CStr}
    {p q fuel : Nat} (hdrop : path.chars.drop p = str) (hp : p ≤ path.chars.length)
    (hfuel : str.length < fuel) : strrchrLoop page character fuel p q =
      .ok ((Name.strrchr character str).elim q fun t => path.chars.length - t.length) := by
  have hfits := h.fits
  induction str generalizing p q fuel with
  | nil =>
    cases fuel with
    | zero => cases hfuel
    | succ fuel =>
      rw [strrchrLoop, h.load (by omega), charAt_of_drop hdrop, ok_bind, charAt_nil]
      simp only [hc.symm, if_false, if_true, Name.strrchr, hc]
      rfl
  | cons x str ih =>
    cases fuel with
    | zero => cases hfuel
    | succ fuel =>
      have hlen := congrArg List.length hdrop
      rw [List.length_drop, List.length_cons] at hlen
      rw [List.length_cons] at hfuel
      have hx : x ≠ 0 := path.noNul x (List.mem_of_mem_drop (hdrop ▸ List.mem_cons_self ..))
      rw [strrchrLoop, h.load (by omega), charAt_of_drop hdrop, ok_bind,
        show charAt (x :: str) 0 = x from rfl, if_neg hx, ih (drop_succ hdrop) (by omega) (by omega),
        Name.strrchr, if_neg hx]
      cases hlater : Name.strrchr character str with
      | some t => rfl
      | none =>
        by_cases hhere : x = character
        · rw [if_pos hhere, if_pos hhere]
          show Except.ok p = Except.ok (path.chars.length - (x :: str).length)
          rw [List.length_cons]
          congr 1
          omega
        · rw [if_neg hhere, if_neg hhere]
          rfl

/-- What strrchr finds is the end of the string from such a character on. -/
theorem strrchr_some {character : UInt8} (hc : character ≠ 0) {str t : CStr}
    (h : Name.strrchr character str = some t) : t <:+ str ∧ charAt t 0 = character := by
  induction str with
  | nil => simp [Name.strrchr, hc] at h
  | cons x str ih =>
    by_cases hx : x = 0
    · rw [Name.strrchr, if_pos hx, if_neg hc] at h
      cases h
    rw [Name.strrchr, if_neg hx] at h
    cases hlater : Name.strrchr character str with
    | some t' =>
      rw [hlater] at h
      cases h
      obtain ⟨hsuffix, hhead⟩ := ih hlater
      exact ⟨hsuffix.trans (List.suffix_cons x str), hhead⟩
    | none =>
      rw [hlater, Option.none_or, Option.ite_none_right_eq_some] at h
      obtain ⟨hhere, heq⟩ := h
      cases heq
      exact ⟨List.suffix_refl _, hhere⟩

theorem strrchr_none {character : UInt8} {str : CStr} (hnul : ∀ x ∈ str, x ≠ 0)
    (h : Name.strrchr character str = none) : character ∉ str := by
  induction str with
  | nil => exact List.not_mem_nil
  | cons x str ih =>
    rw [Name.strrchr, if_neg (hnul x (List.mem_cons_self ..)), Option.or_eq_none_iff] at h
    obtain ⟨hlater, hhere⟩ := h
    split_ifs at hhere with hx
    rw [List.mem_cons, not_or]
    exact ⟨fun heq => hx heq.symm, ih (fun y hy => hnul y (List.mem_cons_of_mem _ hy)) hlater⟩

theorem drop_of_suffix {str t : CStr} (h : t <:+ str) : str.drop (str.length - t.length) = t :=
  (List.suffix_iff_eq_drop.mp h).symm

/-- strrchr on the page points where the list search ends. -/
theorem strrchr_eq (h : Holds page path) : strrchr page 0 slash =
    .ok ((Name.strrchr slash path.chars).map fun t => path.chars.length - t.length) := by
  have hfits := h.fits
  have hslash : slash ≠ 0 := by decide
  have hloop := @strrchrLoop_eq page path h slash hslash path.chars 0 0 (pageSize + 1)
    List.drop_zero (Nat.zero_le _) (by omega)
  rw [strrchr, hloop, ok_bind]
  cases hlast : Name.strrchr slash path.chars with
  | none =>
    have hmem := strrchr_none path.noNul hlast
    have hfirst : charAt path.chars 0 ≠ slash := by
      intro hhere
      cases hchars : path.chars with
      | nil =>
        rw [hchars] at hhere
        exact hslash hhere.symm
      | cons x rest =>
        rw [hchars] at hhere hmem
        exact hmem (hhere ▸ List.mem_cons_self ..)
    show (load page 0 >>= _) = _
    rw [h.load (by decide), ok_bind, if_neg hfirst]
    rfl
  | some t =>
    obtain ⟨hsuffix, hhead⟩ := strrchr_some hslash hlast
    have hchar : charAt path.chars (path.chars.length - t.length) = slash := by
      rw [charAt_of_drop (drop_of_suffix hsuffix), hhead]
    show (load page (path.chars.length - t.length) >>= _) = _
    rw [h.load (by omega), ok_bind, if_pos hchar]
    rfl

/-- The file name of sys_open, as the pointer and the length of a slice. -/
theorem lastSlice_eq (h : Holds page path) : ∃ dname, lastSlice page 0 = .ok dname ∧
    dname.name ≤ path.chars.length ∧
      lastName path = ⟨dname.len, path.chars.drop dname.name⟩ := by
  rw [lastSlice, strrchr_eq h, ok_bind, lastName]
  cases hlast : Name.strrchr slash path.chars with
  | none =>
    refine ⟨⟨0, _⟩, ?_, Nat.zero_le _, rfl⟩
    show (strlen page 0 >>= _) = _
    rw [strlen_eq h (Nat.zero_le _)]
    rfl
  | some t =>
    obtain ⟨hsuffix, hhead⟩ := strrchr_some (by decide) hlast
    have hpos : t.length ≠ 0 := by
      intro hnil
      rw [List.eq_nil_of_length_eq_zero hnil] at hhead
      exact absurd hhead (by decide)
    have hle := hsuffix.length_le
    have hdrop : path.chars.drop (path.chars.length - t.length + 1) = t.drop 1 := by
      rw [← List.drop_drop, drop_of_suffix hsuffix]
    refine ⟨⟨path.chars.length - t.length + 1, Name.strlen (t.drop 1)⟩, ?_, ?_, ?_⟩
    · show (strlen page (path.chars.length - t.length + 1) >>= _) = _
      rw [strlen_eq h (by omega), hdrop]
      rfl
    · show path.chars.length - t.length + 1 ≤ path.chars.length
      omega
    · show _ = QStr.mk _ (path.chars.drop (path.chars.length - t.length + 1))
      rw [hdrop]

/-! ## The iterators -/

/-- The quick string a slice is in the path. -/
def view (path : Pathname) (dname : Slice) : QStr := ⟨dname.len, path.chars.drop dname.name⟩

/-- A slice of the path that was cut at the next slash, or a patched one on a slash. -/
structure Cut (path : Pathname) (dname : Slice) : Prop where
  within : dname.name + dname.len ≤ path.chars.length
  empty : dname.len = 0 → charAt path.chars dname.name = slash ∨
    charAt path.chars dname.name = 0

theorem strcspn_within {p : Nat} (hp : p ≤ path.chars.length) :
    p + Name.strcspn (path.chars.drop p) [slash] ≤ path.chars.length := by
  have hle := strcspn_le_length (path.chars.drop p) [slash]
  rw [List.length_drop] at hle
  omega

theorem charAt_of_strcspn {str : CStr} (h : Name.strcspn str [slash] = 0) :
    charAt str 0 = slash ∨ charAt str 0 = 0 := by
  cases str with
  | nil => exact .inr rfl
  | cons x str =>
    show x = slash ∨ x = 0
    by_contra hne
    obtain ⟨hslash, hnul⟩ := not_or.mp hne
    rw [Name.strcspn, List.takeWhile_cons_of_pos (by simp [hslash, hnul])] at h
    cases h

/-- The first slice is pathFirst of the rest of the path. -/
theorem firstSlice_eq (h : Holds page path) {p : Nat} (hp : p ≤ path.chars.length) :
    firstSlice page p = .ok ⟨p, (pathFirst (path.chars.drop p)).len⟩ := by
  rw [firstSlice, strcspn_eq h hp, ok_bind, pathFirst]
  congr 2
  by_cases hz : Name.strcspn (path.chars.drop p) [slash] = 0
  · rw [if_neg (not_not.mpr hz), if_pos hz]
  · rw [if_pos hz, if_neg hz]

theorem cut_first {p : Nat} (hp : p < path.chars.length) :
    Cut path ⟨p, (pathFirst (path.chars.drop p)).len⟩ := by
  constructor
  · have hne : path.chars.drop p ≠ [] := by
      rw [Ne, List.drop_eq_nil_iff]
      omega
    have hle := pathFirst_len_le hne
    rw [List.length_drop] at hle
    show p + (pathFirst (path.chars.drop p)).len ≤ _
    omega
  · exact fun hzero => absurd hzero (pathFirst_len_pos _)

/-- The next slice is pathNext of this one, further on unless the path ends here. -/
theorem nextSlice_eq (h : Holds page path) {dname : Slice} (hcut : Cut path dname) :
    ∃ next, nextSlice page dname = .ok next ∧ view path next = pathNext (view path dname) ∧
      Cut path next ∧ dname.name + dname.len ≤ next.name ∧
      (dname.name = next.name → charAt path.chars dname.name = 0) := by
  have hfits := h.fits
  have hwithin := hcut.within
  have hchar : charAt (path.chars.drop (dname.name + dname.len)) 0 =
      charAt path.chars (dname.name + dname.len) := by
    rw [charAt_drop, Nat.add_zero]
  rw [nextSlice, h.load (by omega), ok_bind]
  by_cases hslash : charAt path.chars (dname.name + dname.len) = slash
  · have hlt : dname.name + dname.len < path.chars.length := by
      by_contra hend
      rw [charAt_of_le (not_lt.mp hend)] at hslash
      exact absurd hslash (by decide)
    refine ⟨⟨dname.name + dname.len + 1,
      Name.strcspn (path.chars.drop (dname.name + dname.len + 1)) [slash]⟩, ?_, ?_,
      ⟨strcspn_within hlt, fun hz => ?_⟩, ?_, ?_⟩
    · rw [if_pos hslash]
      show (strcspn page (dname.name + dname.len + 1) [slash] >>= _) = _
      rw [strcspn_eq h hlt]
      rfl
    · simp only [view, pathNext, List.drop_drop, hchar, if_pos hslash]
    · have hend := charAt_of_strcspn hz
      rwa [charAt_drop, Nat.add_zero] at hend
    · exact Nat.le_succ _
    · intro heq
      have heq' : dname.name = dname.name + dname.len + 1 := heq
      omega
  · refine ⟨⟨dname.name + dname.len,
      Name.strcspn (path.chars.drop (dname.name + dname.len)) [slash]⟩, ?_, ?_,
      ⟨strcspn_within hwithin, fun hz => ?_⟩, le_rfl, ?_⟩
    · rw [if_neg hslash]
      show (strcspn page (dname.name + dname.len) [slash] >>= _) = _
      rw [strcspn_eq h hwithin]
      rfl
    · simp only [view, pathNext, List.drop_drop, hchar, if_neg hslash]
    · have hend := charAt_of_strcspn hz
      rwa [charAt_drop, Nat.add_zero] at hend
    · intro heq
      have heq' : dname.name = dname.name + dname.len := heq
      have hzero : dname.len = 0 := by omega
      rw [hzero, Nat.add_zero] at hslash
      exact (hcut.empty hzero).resolve_left hslash

/-! ## Termination -/

/-- A condition the loop can read at every slice, and that fails on an empty one at the end. -/
structure Readable (path : Pathname) (test : Slice → Kernel Bool) : Prop where
  ok : ∀ dname, Cut path dname → ∃ go, test dname = .ok go ∧
    (go = true → dname.len = 0 → charAt path.chars dname.name ≠ 0)

theorem atName_readable (h : Holds page path) : Readable path (atName page) := by
  refine ⟨fun dname hcut => ⟨_, ?_, fun hgo _ => of_decide_eq_true hgo⟩⟩
  have hfits := h.fits
  have hwithin := hcut.within
  rw [atName, h.load (by omega)]
  rfl

theorem atEnd_readable (h : Holds page path) : Readable path (atEnd page) := by
  refine ⟨fun dname hcut => ⟨decide (charAt path.chars (dname.name + dname.len) ≠ 0), ?_,
    fun hgo hzero => ?_⟩⟩
  · have hfits := h.fits
    have hwithin := hcut.within
    rw [atEnd, h.load (by omega)]
    rfl
  · rw [hzero] at hgo
    exact of_decide_eq_true hgo

theorem forEach_ends (h : Holds page path) {test : Slice → Kernel Bool}
    (htest : Readable path test) {dname : Slice} {fuel : Nat} (hcut : Cut path dname)
    (hfuel : path.chars.length < dname.name + fuel) :
    ∃ visited, forEach page test fuel dname = .ok visited := by
  induction fuel generalizing dname with
  | zero =>
    have hwithin := hcut.within
    omega
  | succ fuel ih =>
    obtain ⟨go, hgo, hend⟩ := htest.ok dname hcut
    rw [forEach, hgo, ok_bind]
    cases go with
    | false => exact ⟨[], rfl⟩
    | true =>
      obtain ⟨next, hnext, -, hcut', hle, hstay⟩ := nextSlice_eq h hcut
      -- a slice that stays where it is would be an empty one at the end
      have hlt : dname.name < next.name := by
        refine lt_of_le_of_ne (by omega) fun heq => ?_
        exact hend rfl (by omega) (hstay heq)
      obtain ⟨visited, hvisited⟩ := ih hcut' (by omega)
      refine ⟨dname :: visited, ?_⟩
      rw [if_pos rfl, hnext, ok_bind, hvisited]
      rfl

/-- Neither loop leaves the page, wherever the slashes are.  On an empty rest path_for_each_dir
reads the byte after its NUL. -/
theorem pathForEach_ends (h : Holds page path) {p : Nat} (hp : p ≤ path.chars.length) :
    ∃ visited, pathForEach page p = .ok visited := by
  have hfits := h.fits
  rw [pathForEach, firstSlice_eq h hp, ok_bind]
  rcases Nat.lt_or_eq_of_le hp with hlt | rfl
  · exact forEach_ends h (atName_readable h) (cut_first hlt) (by show _ < p + _; omega)
  · refine ⟨[], ?_⟩
    rw [forEach, atName, h.load hfits, charAt_of_le le_rfl]
    rfl

theorem pathForEachDir_ends (h : Holds page path) {p : Nat} (hp : p ≤ path.chars.length)
    (hpage : p + 1 < pageSize) : ∃ visited, pathForEachDir page p = .ok visited := by
  have hfits := h.fits
  rw [pathForEachDir, firstSlice_eq h hp, ok_bind]
  rcases Nat.lt_or_eq_of_le hp with hlt | rfl
  · exact forEach_ends h (atEnd_readable h) (cut_first hlt) (by show _ < p + _; omega)
  · refine ⟨[], ?_⟩
    rw [List.drop_length, forEach, atEnd, show (pathFirst []).len = 1 from rfl, h.load hpage,
      charAt_of_le (Nat.le_succ _)]
    rfl

/-! ## Paths of names -/

/-- Names with something in them. -/
def Names (cs : List CStr) : Prop := ∀ c ∈ cs, c ≠ [] ∧ IsName c

theorem charAt_tail_zero {p : Nat} (hdrop : path.chars.drop p = c ++ pathChars cs) :
    charAt path.chars (p + c.length) = charAt (pathChars cs) 0 := by
  rw [← charAt_drop, hdrop, charAt, charAt, List.getD_append_right _ _ _ _ le_rfl, Nat.sub_self]

theorem drop_component {b : CStr} {p : Nat}
    (hdrop : path.chars.drop p = c ++ pathChars (b :: cs)) :
    path.chars.drop (p + c.length + 1) = b ++ pathChars cs := by
  rw [Nat.add_assoc, ← List.drop_drop, hdrop, ← List.drop_drop, List.drop_left]
  rfl

theorem length_of_drop {p : Nat} (hp : p ≤ path.chars.length)
    (hdrop : path.chars.drop p = c ++ pathChars cs) :
    path.chars.length = p + c.length + (pathChars cs).length := by
  have hlen := congrArg List.length hdrop
  rw [List.length_drop, List.length_append] at hlen
  omega

/-- After the last component an empty slice at the NUL. -/
theorem nextSlice_last (h : Holds page path) {p : Nat} (hp : p ≤ path.chars.length)
    (hdrop : path.chars.drop p = c ++ pathChars []) :
    nextSlice page ⟨p, c.length⟩ = .ok ⟨p + c.length, 0⟩ := by
  have hfits := h.fits
  have hlen : path.chars.length = p + c.length := length_of_drop hp hdrop
  have hnul : charAt path.chars (p + c.length) = 0 := charAt_of_le hlen.le
  rw [nextSlice, h.load (by show p + c.length < _; omega), hnul, ok_bind]
  show (strcspn page (p + c.length) [slash] >>= _) = _
  rw [strcspn_eq h hlen.ge, List.drop_of_length_le hlen.le]
  rfl

theorem nextSlice_component (h : Holds page path) {p : Nat} (hp : p ≤ path.chars.length)
    {b : CStr} (hdrop : path.chars.drop p = c ++ pathChars (b :: cs)) (hb : IsName b) :
    nextSlice page ⟨p, c.length⟩ = .ok ⟨p + c.length + 1, b.length⟩ := by
  have hfits := h.fits
  have hlen := length_of_drop hp hdrop
  have hpos : 0 < (pathChars (b :: cs)).length := Nat.succ_pos _
  have hslash : charAt path.chars (p + c.length) = slash := charAt_tail_zero hdrop
  rw [nextSlice, h.load (by show p + c.length < _; omega), hslash, ok_bind]
  show (strcspn page (p + c.length + 1) [slash] >>= _) = _
  rw [strcspn_eq h (by omega), drop_component hdrop, strcspn_component hb]
  rfl

theorem atName_component (h : Holds page path) {p : Nat} (hne : c ≠ [])
    (hp : p ≤ path.chars.length) (hdrop : path.chars.drop p = c ++ pathChars cs) :
    atName page ⟨p, c.length⟩ = .ok true := by
  have hfits := h.fits
  have hpos : 0 < c.length := List.length_pos_iff.mpr hne
  have hlen := length_of_drop hp hdrop
  have hchar : charAt path.chars p ≠ 0 := charAt_ne_zero path.noNul (by omega)
  rw [atName, h.load (by show p < _; omega), ok_bind]
  exact congrArg Except.ok (decide_eq_true hchar)

theorem atEnd_component (h : Holds page path) {p : Nat} {b : CStr} (hp : p ≤ path.chars.length)
    (hdrop : path.chars.drop p = c ++ pathChars (b :: cs)) :
    atEnd page ⟨p, c.length⟩ = .ok true := by
  have hfits := h.fits
  have hlen := length_of_drop hp hdrop
  have hslash : charAt path.chars (p + c.length) = slash := charAt_tail_zero hdrop
  rw [atEnd, h.load (by show p + c.length < _; omega), hslash]
  rfl

/-- The loops from the first of some components on: path_for_each sees all of them and
path_for_each_dir all but the last. -/
theorem forEach_slices (h : Holds page path) {p fuel : Nat} (hnames : Names (c :: cs))
    (hp : p ≤ path.chars.length) (hdrop : path.chars.drop p = c ++ pathChars cs)
    (hfuel : path.chars.length < p + fuel) :
    forEach page (atName page) fuel ⟨p, c.length⟩ = .ok (slices p (c :: cs)) ∧
      forEach page (atEnd page) fuel ⟨p, c.length⟩ = .ok (slices p (c :: cs).dropLast) := by
  have hfits := h.fits
  induction cs generalizing c p fuel with
  | nil =>
    obtain ⟨hne, -⟩ := hnames c (List.mem_cons_self ..)
    have hpos : 0 < c.length := List.length_pos_iff.mpr hne
    have hend : path.chars.length = p + c.length := length_of_drop hp hdrop
    have hnul : charAt path.chars (p + c.length) = 0 := charAt_of_le hend.le
    obtain ⟨fuel, rfl⟩ : ∃ n, fuel = n + 2 := ⟨fuel - 2, by omega⟩
    constructor
    · rw [forEach, atName_component h hne hp hdrop, ok_bind, if_pos rfl, nextSlice_last h hp hdrop,
        ok_bind, forEach, atName, h.load (by show p + c.length < _; omega), hnul]
      rfl
    · rw [forEach, atEnd, h.load (by show p + c.length < _; omega), hnul]
      rfl
  | cons b cs ih =>
    obtain ⟨hne, -⟩ := hnames c (List.mem_cons_self ..)
    have hnames' : Names (b :: cs) := fun x hx => hnames x (List.mem_cons_of_mem _ hx)
    obtain ⟨-, hb⟩ := hnames' b (List.mem_cons_self ..)
    have hlen := length_of_drop hp hdrop
    have htail : 0 < (pathChars (b :: cs)).length := Nat.succ_pos _
    obtain ⟨fuel, rfl⟩ : ∃ n, fuel = n + 1 := ⟨fuel - 1, by omega⟩
    have hnext := nextSlice_component h hp hdrop hb
    obtain ⟨hall, hdirs⟩ := ih hnames' (by omega : p + c.length + 1 ≤ _) (drop_component hdrop)
      (by omega : _ < _ + fuel)
    constructor
    · rw [forEach, atName_component h hne hp hdrop, ok_bind, if_pos rfl, hnext, ok_bind, hall]
      rfl
    · rw [forEach, atEnd_component h hp hdrop, ok_bind, if_pos rfl, hnext, ok_bind, hdirs]
      rfl

/-- The characters of the slices are the components. -/
theorem text_slices (h : Holds page path) {p : Nat} (hp : p ≤ path.chars.length)
    (hdrop : path.chars.drop p = c ++ pathChars cs) :
    (slices p (c :: cs)).map (text page) = c :: cs := by
  have hfits := h.fits
  have hhead : ∀ {c : CStr} {cs : List CStr} {p : Nat}, p ≤ path.chars.length →
      path.chars.drop p = c ++ pathChars cs → text page ⟨p, c.length⟩ = c := by
    intro name rest p hp hdrop
    have hlen := length_of_drop hp hdrop
    refine List.ext_getElem (by simp [text]) fun i hi hc => ?_
    have hchar : page (p + i) = name[i] := by
      rw [h.bytes _ (by omega), ← charAt_drop, hdrop, charAt_append_left hc, charAt_of_lt hc]
    simpa only [text, List.getElem_map, List.getElem_range] using hchar
  induction cs generalizing c p with
  | nil => exact congrArg (· :: []) (hhead hp hdrop)
  | cons b cs ih =>
    have hlen := length_of_drop hp hdrop
    have htail : 0 < (pathChars (b :: cs)).length := Nat.succ_pos _
    have hrest := ih (by omega : p + c.length + 1 ≤ _) (drop_component hdrop)
    rw [slices, List.map_cons, hhead hp hdrop, hrest]

theorem slices_append (p : Nat) (cs : List CStr) (c : CStr) :
    slices p (cs ++ [c]) = slices p cs ++ [⟨p + (pathChars cs).length, c.length⟩] := by
  induction cs generalizing p with
  | nil => rfl
  | cons b cs ih =>
    have hlen : (pathChars (b :: cs)).length = b.length + 1 + (pathChars cs).length := by
      rw [pathChars, List.flatMap_cons, List.length_append, List.length_cons, pathChars]
    rw [List.cons_append, slices, ih, slices, List.cons_append, hlen, ← Nat.add_assoc,
      ← Nat.add_assoc]

theorem strrchr_append {character : UInt8} (hc : character ≠ 0) {str rest : CStr}
    (hnul : ∀ x ∈ str, x ≠ 0) (hrest : ∀ x ∈ rest, x ≠ 0) (hmem : character ∉ rest) :
    Name.strrchr character (str ++ character :: rest) = some (character :: rest) := by
  induction str with
  | nil =>
    rw [List.nil_append, Name.strrchr, if_neg hc, strrchr_of_not_mem hc hrest hmem, if_pos rfl]
    rfl
  | cons x str ih =>
    rw [List.cons_append, Name.strrchr, if_neg (hnul x (List.mem_cons_self ..)),
      ih fun y hy => hnul y (List.mem_cons_of_mem _ hy)]
    rfl

/-- The file name sys_open looks up is the slice of the last component. -/
theorem lastSlice_component (h : Holds page path) (hnames : Names (cs ++ [c]))
    (hpath : path.chars = pathChars (cs ++ [c])) :
    lastSlice page 0 = .ok ⟨1 + (pathChars cs).length, c.length⟩ := by
  obtain ⟨dname, hlast, hle, hname⟩ := lastSlice_eq h
  have hc : IsName c := (hnames c (List.mem_append_right _ (List.mem_singleton_self c))).2
  have hsplit : path.chars = pathChars cs ++ slash :: c := by
    rw [hpath, pathChars, List.flatMap_append]
    simp only [List.flatMap_cons, List.flatMap_nil, List.append_nil, pathChars]
  have hfound : Name.strrchr slash path.chars = some (slash :: c) := by
    have hnul := path.noNul
    rw [hsplit] at hnul ⊢
    exact strrchr_append (by decide) (fun x hx => hnul x (List.mem_append_left _ hx)) hc.noNul
      fun hmem => (hc slash hmem).2 rfl
  have hlen : path.chars.length = (pathChars cs).length + (c.length + 1) := by
    rw [hsplit, List.length_append, List.length_cons]
  rw [lastName, hfound] at hname
  have hcount : Name.strlen c = dname.len := (QStr.mk.inj hname).1
  have hdrop : c = path.chars.drop dname.name := (QStr.mk.inj hname).2
  rw [strlen_of_noNul hc.noNul] at hcount
  have hrest := congrArg List.length hdrop
  rw [List.length_drop] at hrest
  have hname' : dname.name = 1 + (pathChars cs).length := by omega
  rw [hlast, hcount, ← hname']

/-! ## The three ways of cutting a path -/

/-- path_for_each sees the components, path_for_each_dir all but the last, and the last is the
file name that sys_open finds. -/
structure CutInto (page : Page) (cs : List CStr) : Prop where
  texts : (slices 1 cs).map (text page) = cs
  all : pathForEach page 1 = .ok (slices 1 cs)
  dirs : pathForEachDir page 1 = .ok (slices 1 cs.dropLast)
  last : ∃ dname, lastSlice page 0 = .ok dname ∧ slices 1 cs = slices 1 cs.dropLast ++ [dname]

theorem cutInto_of_names (h : Holds page path) (hne : cs ≠ []) (hnames : Names cs)
    (hpath : path.chars = pathChars cs) : CutInto page cs := by
  have hfits := h.fits
  obtain ⟨c, rest, rfl⟩ := List.exists_cons_of_ne_nil hne
  have hcons : path.chars = slash :: (c ++ pathChars rest) := hpath
  have hdrop : path.chars.drop 1 = c ++ pathChars rest := by
    rw [hcons, List.drop_one, List.tail_cons]
  have hp : 1 ≤ path.chars.length := by
    rw [hcons, List.length_cons]
    omega
  obtain ⟨hcne, hc⟩ := hnames c (List.mem_cons_self ..)
  have hfirst : firstSlice page 1 = .ok ⟨1, c.length⟩ := by
    rw [firstSlice_eq h hp, hdrop, pathFirst, strcspn_component hc,
      if_neg (List.length_pos_iff.mpr hcne).ne']
  obtain ⟨hall, hdirs⟩ := @forEach_slices page path c rest h 1 (pageSize + 1) hnames hp hdrop
    (by omega)
  refine ⟨text_slices h hp hdrop, ?_, ?_, ?_⟩
  · rw [pathForEach, hfirst, ok_bind, hall]
  · rw [pathForEachDir, hfirst, ok_bind, hdirs]
  · obtain ⟨init, last, hsplit⟩ := List.eq_nil_or_concat (c :: rest) |>.resolve_left hne
    rw [List.concat_eq_append] at hsplit
    rw [hsplit] at hnames hpath ⊢
    rw [List.dropLast_concat]
    exact ⟨_, lastSlice_component h hnames hpath, slices_append 1 init last⟩

/-- The iterators and the last-component search cut every path of names at the same places, and
both loops come to an end on every string of the page. -/
theorem path_iterators_agree (h : Holds page path) :
    (∀ cs, cs ≠ [] → Names cs → path.chars = pathChars cs → CutInto page cs) ∧
      ∀ p ≤ path.chars.length, p + 1 < pageSize →
        (∃ visited, pathForEach page p = .ok visited) ∧
          ∃ visited, pathForEachDir page p = .ok visited :=
  ⟨fun _ hne hnames hpath => cutInto_of_names h hne hnames hpath,
    fun _ hp hpage => ⟨pathForEach_ends h hp, pathForEachDir_ends h hp hpage⟩⟩

/-- `/ab/c` -/
def abPath : Pathname := ⟨[47, 97, 98, 47, 99], by simp⟩

/-- A page that holds it: the slices are two characters at 1 and one at 4. -/
theorem path_iterators_agree_ab : CutInto (charAt abPath.chars) [[97, 98], [99]] ∧
    slices 1 [[97, 98], [99]] = [⟨1, 2⟩, ⟨4, 1⟩] := by
  have hholds : Holds (charAt abPath.chars) abPath := ⟨by decide, fun _ _ => rfl⟩
  have hnames : Names [[97, 98], [99]] := by
    intro c hc
    fin_cases hc
    · exact ⟨by decide, by simp [IsName, slash]⟩
    · exact ⟨by decide, by simp [IsName, slash]⟩
  exact ⟨(path_iterators_agree hholds).1 _ (by decide) hnames rfl, rfl⟩

/-- Slashes in a row give empty slices, and the loop goes on behind them. -/
example : pathForEach (charAt [47, 47, 47, 97]) 1 = .ok [⟨1, 1⟩, ⟨3, 1⟩] := by decide

end RxdOs.Fs.PathIterators
