/- RxdOs/Libk/Strncmp
   source: lib/string.c (strncmp)
   digest: strncmp on memory of which only a part may be read, and how far it reads. -/

import RxdOs.Libk.Str

set_option autoImplicit false
set_option relaxedAutoImplicit false

namespace RxdOs.Libk.Strncmp

open RxdOs.Base.Assert RxdOs.Libk.Str
open RxdOs.Fs.Name (CStr charAt compareChar compareChar_eq_zero)

/-- Memory of which only a part may be read. -/
abbrev Readable := Nat → Option UInt8

def load (mem : Readable) (a : Nat) : Kernel UInt8 :=
  match mem a with
  | some c => .ok c
  | none => .error (.fault "read")

/-- `(*str1 == *str2) ? 0 : ((*str1 < *str2) ? -1 : 1)` -/
def compareAt (mem : Readable) (str1 str2 : Nat) : Kernel Int := do
  let c1 ← load mem str1
  let c2 ← load mem str2
  pure (compareChar c1 c2)

/-- `while (num-- && *str1 == *str2 && *str1 != '\0')`, and the comparison after it. -/
def strncmpLoop (mem : Readable) (str1 str2 : Nat) : Nat → Kernel Int
  | 0 => compareAt mem str1 str2
  | num + 1 => do
    let c1 ← load mem str1
    let c2 ← load mem str2
    if c1 = c2 ∧ c1 ≠ 0 then strncmpLoop mem (str1 + 1) (str2 + 1) num
    else compareAt mem str1 str2

def strncmp (mem : Readable) (str1 str2 : Nat) (num : UInt32) : Kernel Int := do
  assert (str1 ≠ 0) "str1 != NULL"
  assert (str2 ≠ 0) "str2 != NULL"
  if num = 0 then pure 0 else strncmpLoop mem str1 str2 num.toNat

/-! ## The loop -/

/-- All of memory may be read. -/
def whole (mem : Memory) : Readable := fun a => some (mem a)

/-- Only the first `num` characters of each of the two strings may be read. -/
def firstChars (mem : Memory) (str1 str2 num : Nat) : Readable := fun a =>
  if (str1 ≤ a ∧ a < str1 + num) ∨ (str2 ≤ a ∧ a < str2 + num) then some (mem a) else none

@[simp] theorem load_whole (mem : Memory) (a : Nat) : load (whole mem) a = .ok (mem a) := rfl

section Loop

variable {mem mem' : Memory} {r : Readable} {str1 str2 num i : Nat}

theorem load_firstChars (h : (str1 ≤ i ∧ i < str1 + num) ∨ (str2 ≤ i ∧ i < str2 + num)) :
    load (firstChars mem str1 str2 num) i = .ok (mem i) := by
  rw [load, firstChars, if_pos h]

theorem compareAt_whole : compareAt (whole mem) str1 str2 = .ok (compareChar (mem str1) (mem str2)) :=
  rfl

/-- Where the strings first differ or end, the loop stops, if it gets so far. -/
theorem strncmpLoop_stop (hi : i < num)
    (hload : ∀ j ≤ i, load r (str1 + j) = .ok (mem (str1 + j)) ∧
      load r (str2 + j) = .ok (mem (str2 + j)))
    (hbefore : ∀ j < i, mem (str1 + j) = mem (str2 + j) ∧ mem (str1 + j) ≠ 0)
    (hstop : mem (str1 + i) ≠ mem (str2 + i) ∨ mem (str1 + i) = 0) :
    strncmpLoop r str1 str2 num = .ok (compareChar (mem (str1 + i)) (mem (str2 + i))) := by
  induction i generalizing str1 str2 num with
  | zero =>
    obtain ⟨num, rfl⟩ := Nat.exists_eq_add_of_le' hi
    obtain ⟨h1, h2⟩ := hload 0 le_rfl
    have hgo : ¬(mem str1 = mem str2 ∧ mem str1 ≠ 0) := fun h => hstop.elim (· h.1) h.2
    rw [Nat.add_zero] at h1 h2
    simp only [strncmpLoop, compareAt, h1, h2, ok_bind, if_neg hgo, Nat.add_zero]
    rfl
  | succ i ih =>
    obtain ⟨num, rfl⟩ := Nat.exists_eq_add_of_le' (Nat.one_le_of_lt hi)
    obtain ⟨h1, h2⟩ := hload 0 (Nat.zero_le _)
    have hgo : mem str1 = mem str2 ∧ mem str1 ≠ 0 := hbefore 0 (Nat.succ_pos i)
    have hshift : ∀ s j, s + 1 + j = s + (j + 1) := fun s j => by omega
    rw [Nat.add_zero] at h1 h2
    simp only [strncmpLoop, h1, h2, ok_bind, if_pos hgo]
    have hload' : ∀ j ≤ i, load r (str1 + 1 + j) = .ok (mem (str1 + 1 + j)) ∧
        load r (str2 + 1 + j) = .ok (mem (str2 + 1 + j)) := fun j hj => by
      rw [hshift, hshift]
      exact hload (j + 1) (by omega)
    have hbefore' : ∀ j < i, mem (str1 + 1 + j) = mem (str2 + 1 + j) ∧ mem (str1 + 1 + j) ≠ 0 :=
      fun j hj => by
        rw [hshift, hshift]
        exact hbefore (j + 1) (by omega)
    rw [← hshift str1 i, ← hshift str2 i] at hstop ⊢
    exact ih (Nat.lt_of_succ_lt_succ hi) hload' hbefore' hstop

/-- When the first `num` characters agree and none of them ends the strings, the next two are
compared as well. -/
theorem strncmpLoop_through
    (hload : ∀ j < num, load r (str1 + j) = .ok (mem (str1 + j)) ∧
      load r (str2 + j) = .ok (mem (str2 + j)))
    (hagree : ∀ j < num, mem (str1 + j) = mem (str2 + j) ∧ mem (str1 + j) ≠ 0) :
    strncmpLoop r str1 str2 num = compareAt r (str1 + num) (str2 + num) := by
  induction num generalizing str1 str2 with
  | zero => rfl
  | succ num ih =>
    obtain ⟨h1, h2⟩ := hload 0 (Nat.succ_pos num)
    have hgo : mem str1 = mem str2 ∧ mem str1 ≠ 0 := hagree 0 (Nat.succ_pos num)
    have hshift : ∀ s j, s + 1 + j = s + (j + 1) := fun s j => by omega
    rw [Nat.add_zero] at h1 h2
    simp only [strncmpLoop, h1, h2, ok_bind, if_pos hgo]
    rw [ih (fun j hj => ?_) (fun j hj => ?_), hshift, hshift]
    · rw [hshift, hshift]
      exact hload (j + 1) (by omega)
    · rw [hshift, hshift]
      exact hagree (j + 1) (by omega)

/-- One of the two characters at index `num` lies in neither of the two beginnings. -/
theorem compareAt_firstChars (v : Int) :
    compareAt (firstChars mem str1 str2 num) (str1 + num) (str2 + num) ≠ .ok v := by
  intro h
  simp only [compareAt, bind_eq_ok, pure_eq_ok] at h
  obtain ⟨c1, h1, c2, h2, -⟩ := h
  have hin : ∀ a c, load (firstChars mem str1 str2 num) a = .ok c →
      (str1 ≤ a ∧ a < str1 + num) ∨ (str2 ≤ a ∧ a < str2 + num) := by
    intro a c hload
    by_contra hout
    rw [load, firstChars, if_neg hout] at hload
    cases hload
  have hin1 := hin _ _ h1
  have hin2 := hin _ _ h2
  omega

end Loop

/-! ## The limit -/

/-- The first `num` characters, up to and including a common NUL. -/
def Agree (mem : Memory) (str1 str2 num : Nat) : Prop :=
  ∀ i < num, (∀ j < i, mem (str1 + j) ≠ 0) → mem (str1 + i) = mem (str2 + i)

/-- What a comparison of at most `num` characters is: it tells whether they agree, it gets along
with those characters alone and depends on no others, and it changes its sign with the order. -/
structure Limited (mem : Memory) (str1 str2 : Nat) (num : UInt32) : Prop where
  zero : ∃ v, strncmp (whole mem) str1 str2 num = .ok v ∧ (v = 0 ↔ Agree mem str1 str2 num.toNat)
  unread : strncmp (firstChars mem str1 str2 num.toNat) str1 str2 num =
    strncmp (whole mem) str1 str2 num
  independent : ∀ mem' : Memory, (∀ i < num.toNat, mem' (str1 + i) = mem (str1 + i) ∧
    mem' (str2 + i) = mem (str2 + i)) →
      strncmp (whole mem') str1 str2 num = strncmp (whole mem) str1 str2 num
  opposite : ∃ v, strncmp (whole mem) str1 str2 num = .ok v ∧
    strncmp (whole mem) str2 str1 num = .ok (-v)

section Limit

variable {mem : Memory} {r : Readable} {str1 str2 i : Nat} {num : UInt32}

theorem strncmp_zero (hstr1 : str1 ≠ 0) (hstr2 : str2 ≠ 0) : strncmp r str1 str2 0 = .ok 0 := by
  rw [strncmp, assert_pos hstr1, assert_pos hstr2]
  rfl

theorem strncmp_pos (hstr1 : str1 ≠ 0) (hstr2 : str2 ≠ 0) (hnum : num ≠ 0) :
    strncmp r str1 str2 num = strncmpLoop r str1 str2 num.toNat := by
  rw [strncmp, assert_pos hstr1, assert_pos hstr2]
  simp only [ok_bind, if_neg hnum]

theorem compareChar_neg (c1 c2 : UInt8) : compareChar c2 c1 = -compareChar c1 c2 := by
  unfold compareChar
  simp only [Int8.lt_iff_toInt_lt]
  by_cases heq : c1 = c2
  · rw [if_pos heq, if_pos heq.symm]
    rfl
  · have hne : c1.toInt8.toInt ≠ c2.toInt8.toInt := fun h => by
      have hback := congrArg Int8.toUInt8 (Int8.toInt_inj.mp h)
      exact heq (by simpa using hback)
    rw [if_neg heq, if_neg (Ne.symm heq)]
    by_cases hlt : c1.toInt8.toInt < c2.toInt8.toInt
    · rw [if_pos hlt, if_neg hlt.not_gt]
      rfl
    · rw [if_neg hlt, if_pos (by omega)]

/-- The strings first differ or end at index `i`. -/
structure StopsAt (mem : Memory) (str1 str2 i : Nat) : Prop where
  before : ∀ j < i, mem (str1 + j) = mem (str2 + j) ∧ mem (str1 + j) ≠ 0
  stop : mem (str1 + i) ≠ mem (str2 + i) ∨ mem (str1 + i) = 0

theorem StopsAt.symm (h : StopsAt mem str1 str2 i) : StopsAt mem str2 str1 i := by
  refine ⟨fun j hj => ⟨(h.before j hj).1.symm, (h.before j hj).1 ▸ (h.before j hj).2⟩, ?_⟩
  by_cases heq : mem (str1 + i) = mem (str2 + i)
  · exact .inr (heq ▸ h.stop.resolve_left (not_not_intro heq))
  · exact .inl (Ne.symm heq)

/-- Such an index below `num` exists unless the first `num` characters agree and go on. -/
theorem exists_stopsAt {n : Nat}
    (h : ∃ i < n, mem (str1 + i) ≠ mem (str2 + i) ∨ mem (str1 + i) = 0) :
    ∃ i < n, StopsAt mem str1 str2 i := by
  have hex : ∃ i, mem (str1 + i) ≠ mem (str2 + i) ∨ mem (str1 + i) = 0 :=
    h.imp fun _ hi => hi.2
  obtain ⟨k, hk, hstop⟩ := h
  refine ⟨Nat.find hex, (Nat.find_min' hex hstop).trans_lt hk, fun j hj => ?_, Nat.find_spec hex⟩
  have hno := Nat.find_min hex hj
  tauto

theorem StopsAt.agree_iff {n : Nat} (h : StopsAt mem str1 str2 i) (hi : i < n) :
    Agree mem str1 str2 n ↔ mem (str1 + i) = mem (str2 + i) := by
  constructor
  · exact fun hagree => hagree i hi fun j hj => (h.before j hj).2
  · intro heq k _ hbefore
    have hzero := h.stop.resolve_left (not_not_intro heq)
    rcases lt_trichotomy k i with hk | rfl | hk
    · exact (h.before k hk).1
    · exact heq
    · exact absurd hzero (hbefore i hk)

/-- Where the stop lies below `num`, the characters up to it decide the result. -/
theorem StopsAt.strncmp_eq (h : StopsAt mem str1 str2 i) (hi : i < num.toNat) (hstr1 : str1 ≠ 0)
    (hstr2 : str2 ≠ 0)
    (hload : ∀ j < num.toNat, load r (str1 + j) = .ok (mem (str1 + j)) ∧
      load r (str2 + j) = .ok (mem (str2 + j))) :
    strncmp r str1 str2 num = .ok (compareChar (mem (str1 + i)) (mem (str2 + i))) := by
  have hnum : num ≠ 0 := fun h0 => by simp [h0] at hi
  rw [strncmp_pos hstr1 hstr2 hnum]
  exact strncmpLoop_stop hi (fun j hj => hload j (by omega)) h.before h.stop

theorem StopsAt.limited (h : StopsAt mem str1 str2 i) (hi : i < num.toNat) (hstr1 : str1 ≠ 0)
    (hstr2 : str2 ≠ 0) : Limited mem str1 str2 num := by
  have hwhole := h.strncmp_eq hi hstr1 hstr2 fun j _ => ⟨load_whole mem _, load_whole mem _⟩
  refine ⟨⟨_, hwhole, compareChar_eq_zero.trans (h.agree_iff hi).symm⟩, ?_, fun mem' hmem' => ?_,
    ⟨_, hwhole, ?_⟩⟩
  · rw [hwhole]
    exact h.strncmp_eq hi hstr1 hstr2 fun j hj =>
      ⟨load_firstChars (.inl (by omega)), load_firstChars (.inr (by omega))⟩
  · rw [hwhole]
    refine h.strncmp_eq hi hstr1 hstr2 fun j hj => ?_
    rw [load_whole, load_whole, (hmem' j hj).1, (hmem' j hj).2]
    exact ⟨rfl, rfl⟩
  · rw [h.symm.strncmp_eq hi hstr2 hstr1 fun j _ => ⟨load_whole mem _, load_whole mem _⟩,
      compareChar_neg]

/-- strncmp keeps to its first `num` characters exactly when they differ or end somewhere, or
there are none. -/
theorem strncmp_limit_iff (hstr1 : str1 ≠ 0) (hstr2 : str2 ≠ 0) : Limited mem str1 str2 num ↔
    num = 0 ∨ ∃ i < num.toNat, mem (str1 + i) ≠ mem (str2 + i) ∨ mem (str1 + i) = 0 := by
  constructor
  · intro h
    by_contra hno
    push Not at hno
    obtain ⟨hnum, hall⟩ := hno
    have hthrough := h.unread
    rw [strncmp_pos hstr1 hstr2 hnum, strncmp_pos hstr1 hstr2 hnum,
      strncmpLoop_through (fun j hj => ⟨load_firstChars (.inl (by omega)),
        load_firstChars (.inr (by omega))⟩) hall,
      strncmpLoop_through (fun j _ => ⟨load_whole mem _, load_whole mem _⟩) hall] at hthrough
    exact compareAt_firstChars _ hthrough
  · rintro (rfl | hstop)
    · have hzero : ∀ (r : Readable) (s t : Nat), s ≠ 0 → t ≠ 0 → strncmp r s t 0 = .ok 0 :=
        fun _ _ _ hs ht => strncmp_zero hs ht
      refine ⟨⟨0, hzero _ _ _ hstr1 hstr2, ?_⟩, ?_, fun mem' _ => ?_, 0, hzero _ _ _ hstr1 hstr2,
        hzero _ _ _ hstr2 hstr1⟩
      · exact iff_of_true rfl fun i hi => absurd hi (Nat.not_lt_zero i)
      · rw [hzero _ _ _ hstr1 hstr2, hzero _ _ _ hstr1 hstr2]
      · rw [hzero _ _ _ hstr1 hstr2, hzero _ _ _ hstr1 hstr2]
    · obtain ⟨i, hi, hstops⟩ := exists_stopsAt hstop
      exact hstops.limited hi hstr1 hstr2

end Limit

/-- "ab" and "ac" at addresses 1 and 4. -/
def twoNames : Memory := fun a => [0, 97, 98, 0, 97, 99, 0].getD a 0

theorem strncmp_limit_names : Limited twoNames 1 4 2 :=
  (strncmp_limit_iff (by decide) (by decide)).mpr (.inr ⟨1, by decide, by decide⟩)

/-- The first characters of the two names agree; strncmp with num = 1 tells them apart. -/
theorem strncmp_reads_on : strncmp (whole twoNames) 1 4 1 = .ok (-1) ∧ Agree twoNames 1 4 1 ∧
    ¬Limited twoNames 1 4 1 := by
  have hvalue : strncmp (whole twoNames) 1 4 1 = .ok (-1) := by decide
  have hagree : Agree twoNames 1 4 1 := by
    intro i hi _
    obtain rfl := Nat.lt_one_iff.mp hi
    rfl
  refine ⟨hvalue, hagree, fun h => ?_⟩
  obtain ⟨v, hv, hzero⟩ := h.zero
  rw [hvalue] at hv
  obtain rfl := Except.ok.inj hv
  exact absurd (hzero.mpr hagree) (by decide)

/-! ## The list model -/

section Lists

open RxdOs.Fs.Name (charAt_tail)

variable {mem : Memory} {str1 str2 : Nat}

theorem strncmpLoop_lists {num : Nat} {s t : CStr} (hs : ∀ i ≤ num, mem (str1 + i) = charAt s i)
    (ht : ∀ i ≤ num, mem (str2 + i) = charAt t i) :
    strncmpLoop (whole mem) str1 str2 num = .ok (Fs.Name.strncmpLoop num s t) := by
  have hs0 : mem str1 = charAt s 0 := hs 0 (Nat.zero_le num)
  have ht0 : mem str2 = charAt t 0 := ht 0 (Nat.zero_le num)
  induction num generalizing s t str1 str2 with
  | zero => rw [strncmpLoop, compareAt_whole, hs0, ht0, Fs.Name.strncmpLoop]
  | succ num ih =>
    have hs' : ∀ i ≤ num, mem (str1 + 1 + i) = charAt s.tail i := fun i hi => by
      rw [charAt_tail, ← hs (i + 1) (by omega), Nat.add_assoc, Nat.add_comm 1 i]
    have ht' : ∀ i ≤ num, mem (str2 + 1 + i) = charAt t.tail i := fun i hi => by
      rw [charAt_tail, ← ht (i + 1) (by omega), Nat.add_assoc, Nat.add_comm 1 i]
    simp only [strncmpLoop, load_whole, ok_bind, compareAt_whole, hs0, ht0, Fs.Name.strncmpLoop]
    split_ifs with hgo
    · exact ih hs' ht' (hs' 0 (Nat.zero_le num)) (ht' 0 (Nat.zero_le num))
    · rfl

/-- The comparison of names in the path code is strncmp on the memory that holds them. -/
theorem strncmp_lists {num : UInt32} {s t : CStr} (hstr1 : str1 ≠ 0) (hstr2 : str2 ≠ 0)
    (hs : ∀ i ≤ num.toNat, mem (str1 + i) = charAt s i)
    (ht : ∀ i ≤ num.toNat, mem (str2 + i) = charAt t i) :
    strncmp (whole mem) str1 str2 num = .ok (Fs.Name.strncmp s t num.toNat) := by
  by_cases hnum : num = 0
  · rw [hnum, strncmp_zero hstr1 hstr2]
    rfl
  · have hpos : num.toNat ≠ 0 := fun h => hnum (toNat_eq_zero.mp h)
    rw [strncmp_pos hstr1 hstr2 hnum, strncmpLoop_lists hs ht, Fs.Name.strncmp, if_neg hpos]

end Lists

end RxdOs.Libk.Strncmp
