/- RxdOs/Libk/FormatGrammar
   source: lib/printf.c (vsprintf)
   digest: The documented form of a format string and the form vsprintf reads, which leaves open
   where a string ends and how often a part of a conversion is given. -/

import Mathlib.Tactic
import Mathlib.Order.CompletePartialOrder
import RxdOs.Lib.Grammar
import RxdOs.Libk.Vsprintf

set_option autoImplicit false
set_option relaxedAutoImplicit false

namespace RxdOs.Libk.FormatGrammar

open Computability RxdOs.Base.Assert RxdOs.Lib.Grammar RxdOs.Libk.Str RxdOs.Libk.Itoa
  RxdOs.Libk.Itoaf RxdOs.Libk.Vsprintf

/-! ## The two forms -/

def ordinary : Language UInt8 := letter fun c => c ≠ percent
def escape : Language UInt8 := letter fun c => c = percent
def flag : Language UInt8 := letter fun c => c ∈ flagChars
def number : Language UInt8 := letter isdigit * (letter isdigit)∗ + letter fun c => c = asterisk
def dot : Language UInt8 := letter fun c => c = point
def lengths : Language UInt8 := (letter fun c => c ∈ lengthChars)∗
def specifier : Language UInt8 := letter fun c => c ∈ specifierChars

/-- "%[flags][width][.precision][length]specifier" -/
def conversion : Language UInt8 :=
  escape * ((1 + flag) * ((1 + number) * ((1 + dot * number) * (lengths * specifier))))

def documented : Language UInt8 := (ordinary + conversion)∗

/-- A conversion up to its specifier, as it is read: any number of dots, with or without a number
before and behind them. -/
def opening : Language UInt8 :=
  escape * ((1 + flag) * ((1 + number) * (dot∗ * ((1 + number) * lengths))))

/-- The string may end in an opening. -/
def accepted : Language UInt8 := (ordinary + opening * specifier)∗ * (1 + opening)

/-- The '*' and the specifiers of the conversions, in order. -/
def asked : Bool → List UInt8 → List UInt8
  | _, [] => []
  | false, c :: fmt => asked (c = percent) fmt
  | true, c :: fmt =>
    if c = asterisk then c :: asked true fmt
    else if c ∈ specifierChars then c :: asked false fmt
    else asked true fmt

/-! ## What may follow in each state -/

def atSpecifier : Language UInt8 := 1 + specifier * accepted
def atLength : Language UInt8 := lengths * atSpecifier
def atNumber : Language UInt8 := dot∗ * ((1 + number) * atLength)
def atWidth : Language UInt8 := (1 + number) * atNumber

def rest : Nat → Language UInt8
  | 0 => accepted
  | 1 => (1 + flag) * atWidth
  | 2 => atWidth
  | 3 => atNumber
  | 4 => atLength
  | _ => atSpecifier

section Rest

variable {c : UInt8} {w : List UInt8}

theorem documented_le : documented ≤ accepted := by
  have hpoint : (1 : Language UInt8) + dot * number ≤ dot∗ * (1 + number) := by
    refine sup_le ?_ ?_
    · calc (1 : Language UInt8) = 1 * 1 := (mul_one 1).symm
        _ ≤ dot∗ * (1 + number) := mul_le_mul' one_le_kstar le_self_add
    · exact mul_le_mul' le_kstar le_add_self
  have hend : (1 + dot * number) * (lengths * specifier) ≤
      dot∗ * ((1 + number) * (lengths * specifier)) := by
    rw [← mul_assoc dot∗]
    exact mul_le_mul_left hpoint (lengths * specifier)
  have hconversion : conversion ≤ opening * specifier := by
    simp only [opening, mul_assoc]
    exact mul_le_mul_right (mul_le_mul_right (mul_le_mul_right hend _) _) _
  calc documented ≤ (ordinary + opening * specifier)∗ :=
      kstar_mono (add_le_add_right hconversion ordinary)
    _ = (ordinary + opening * specifier)∗ * 1 := (mul_one _).symm
    _ ≤ accepted := mul_le_mul_right le_self_add _

theorem opening_mul : opening * atSpecifier = escape * rest 1 := by
  simp only [opening, rest, atWidth, atNumber, atLength, mul_assoc]

/-- A string ends, or goes on with a character or a conversion. -/
theorem accepted_eq : accepted = 1 + (ordinary * accepted + escape * rest 1) := by
  have hmul : opening * specifier * accepted + opening = opening * atSpecifier := by
    rw [atSpecifier, mul_add, mul_one, mul_assoc, add_comm]
  rw [← opening_mul, ← hmul]
  conv_lhs => rw [accepted, kstar_mul_eq, ← accepted, add_mul]
  rw [add_assoc, add_comm opening, add_assoc]

theorem cons_mem_accepted :
    c :: w ∈ accepted ↔ (c ≠ percent ∧ w ∈ accepted) ∨ (c = percent ∧ w ∈ rest 1) := by
  have hone : c :: w ∉ (1 : Language UInt8) := List.cons_ne_nil c w
  nth_rewrite 1 [accepted_eq]
  rw [Language.mem_add, Language.mem_add, ordinary, escape, cons_mem_letter_mul,
    cons_mem_letter_mul, or_iff_right hone, decide_eq_true_eq, decide_eq_true_eq]

theorem cons_mem_atSpecifier : c :: w ∈ atSpecifier ↔ c ∈ specifierChars ∧ w ∈ accepted := by
  have hone : c :: w ∉ (1 : Language UInt8) := List.cons_ne_nil c w
  rw [atSpecifier, Language.mem_add, or_iff_right hone, specifier, cons_mem_letter_mul,
    decide_eq_true_eq]

theorem cons_mem_atLength :
    c :: w ∈ atLength ↔ (c ∈ lengthChars ∧ w ∈ atLength) ∨ c :: w ∈ atSpecifier := by
  rw [atLength, lengths, cons_mem_many_mul, decide_eq_true_eq]

theorem cons_mem_number_mul {l : Language UInt8} : c :: w ∈ number * l ↔
    (isdigit c = true ∧ w ∈ (letter isdigit)∗ * l) ∨ (c = asterisk ∧ w ∈ l) := by
  rw [number, mem_add_mul, mul_assoc, cons_mem_letter_mul, cons_mem_letter_mul, decide_eq_true_eq]

theorem cons_mem_atNumber : c :: w ∈ atNumber ↔
    (c = point ∧ w ∈ atNumber) ∨ c :: w ∈ number * atLength ∨ c :: w ∈ atLength := by
  rw [atNumber, dot, cons_mem_many_mul, mem_opt_mul, decide_eq_true_eq]

theorem mem_atWidth : w ∈ atWidth ↔ w ∈ number * atNumber ∨ w ∈ atNumber := mem_opt_mul

theorem atLength_le : atLength ≤ atNumber := fun _ hw =>
  mem_kstar_mul_of_mem (mem_opt_mul.mpr (.inr hw))

theorem nil_mem_rest (e : Nat) : [] ∈ rest e := by
  have hspecifier : [] ∈ atSpecifier := .inl rfl
  have hlength : [] ∈ atLength := nil_mem_many_mul.mpr hspecifier
  have hnumber : [] ∈ atNumber := atLength_le hlength
  have hwidth : [] ∈ atWidth := mem_atWidth.mpr (.inr hnumber)
  have haccepted : [] ∈ accepted := by
    rw [accepted_eq]
    exact .inl rfl
  match e with
  | 0 => exact haccepted
  | 1 => exact mem_opt_mul.mpr (.inr hwidth)
  | 2 => exact hwidth
  | 3 => exact hnumber
  | 4 => exact hlength
  | _ + 5 => exact hspecifier

/-! The classes of the table are the letters of the grammar. -/

theorem class_flag : c ∈ flagChars ↔ fmtClass c = fmtFlags := by
  have hall : ∀ c ∈ flagChars, fmtClass c = fmtFlags := by decide +kernel
  exact ⟨hall c, fmtClass_flags⟩

theorem class_point : c = point ↔ fmtClass c = fmtPrecision := by
  refine ⟨fun h => h ▸ by decide, fun h => ?_⟩
  by_contra hno
  rw [fmtClass_eq, classOf, if_neg hno] at h
  split_ifs at h <;> exact absurd h (by decide)

theorem class_length : c ∈ lengthChars ↔ fmtClass c = fmtLength := by
  have hall : ∀ c ∈ lengthChars, fmtClass c = fmtLength := by decide +kernel
  refine ⟨hall c, fun h => ?_⟩
  by_contra hno
  rw [fmtClass_eq, classOf, if_neg hno] at h
  split_ifs at h <;> exact absurd h (by decide)

theorem class_specifier : c ∈ specifierChars ↔ fmtClass c = fmtSpecifier := by
  have hall : ∀ c ∈ specifierChars, fmtClass c = fmtSpecifier := by decide +kernel
  refine ⟨hall c, fun h => ?_⟩
  by_contra hno
  rw [fmtClass_eq, classOf, if_neg hno] at h
  split_ifs at h <;> exact absurd h (by decide)

theorem digit_other (h : isdigit c = true) :
    c ≠ asterisk ∧ c ≠ point ∧ c ∉ lengthChars ∧ c ∉ specifierChars := by
  have hstar : c ≠ asterisk := by
    rintro rfl
    exact absurd h (by decide)
  rw [ne_eq c point, class_point, class_length, class_specifier]
  exact ⟨hstar, fmtClass_low_ne (.inr h)⟩

/-! A reader may skip length letters and digits. -/

theorem mem_atLength_iff :
    w ∈ atLength ↔ w.dropWhile (fun c => fmtClass c = fmtLength) ∈ atSpecifier := by
  have hclass : (fun c : UInt8 => decide (fmtClass c = fmtLength)) = fun c => c ∈ lengthChars := by
    funext c
    exact decide_eq_decide.mpr class_length.symm
  rw [hclass]
  refine mem_many_mul_iff fun w hw => ?_
  rcases w with _ | ⟨c, w⟩
  · exact hw
  · have hlength : c ∉ lengthChars := by
      rw [class_length, class_specifier.mp (cons_mem_atSpecifier.mp hw).1]
      decide
    rwa [List.dropWhile_cons, if_neg (by simpa using hlength)]

theorem digit_notMem_atLength (hc : isdigit c = true) : c :: w ∉ atLength := by
  obtain ⟨-, -, hlength, hspecifier⟩ := digit_other hc
  rw [cons_mem_atLength, cons_mem_atSpecifier]
  exact fun h => h.elim (fun h => hlength h.1) fun h => hspecifier h.1

theorem mem_digits_atLength :
    w ∈ (letter isdigit)∗ * atLength ↔ w.dropWhile isdigit ∈ atLength := by
  refine mem_many_mul_iff fun w hw => ?_
  rcases w with _ | ⟨c, w⟩
  · exact hw
  · rwa [List.dropWhile_cons, if_neg fun hc => digit_notMem_atLength hc hw]

theorem mem_digits_atNumber :
    w ∈ (letter isdigit)∗ * atNumber ↔ w.dropWhile isdigit ∈ atNumber := by
  refine mem_many_mul_iff fun w hw => ?_
  rcases w with _ | ⟨c, w⟩
  · exact hw
  · rw [List.dropWhile_cons]
    split_ifs with hc
    · obtain ⟨hstar, hpoint, -, -⟩ := digit_other hc
      rcases cons_mem_atNumber.mp hw with hdot | hnumber | hlength
      · exact absurd hdot.1 hpoint
      · rcases cons_mem_number_mul.mp hnumber with hdigits | hone
        · exact atLength_le (mem_digits_atLength.mp hdigits.2)
        · exact absurd hone.1 hstar
      · exact absurd hlength (digit_notMem_atLength hc)
    · exact hw

end Rest

theorem digits_atNumber_le : (letter isdigit)∗ * atNumber ≤ atWidth := by
  intro w hw
  rcases w with _ | ⟨c, w⟩
  · exact nil_mem_rest 2
  · rcases cons_mem_many_mul.mp hw with hdigit | hnumber
    · exact mem_atWidth.mpr (.inl (cons_mem_number_mul.mpr (.inl hdigit)))
    · exact mem_atWidth.mpr (.inr hnumber)

/-! ## The automaton -/

section Automaton

variable {c : UInt8} {w : List UInt8}

/-- The rest of a string may follow if its first character is not bad and what is left then may
follow in the next state. -/
def Continues (e : Nat) (c : UInt8) (w : List UInt8) : Prop :=
  ∃ e' w', next e c w = some (e', w') ∧ w' ∈ rest e'

theorem continues_some {e e' : Nat} {w' : List UInt8} (h : next e c w = some (e', w')) :
    Continues e c w ↔ w' ∈ rest e' := by
  constructor
  · rintro ⟨e'', w'', hnext, hmem⟩
    obtain ⟨rfl, rfl⟩ := Prod.mk.inj (Option.some.inj (h.symm.trans hnext))
    exact hmem
  · exact fun hmem => ⟨e', w', h, hmem⟩

theorem continues_none {e : Nat} (h : next e c w = none) : ¬Continues e c w := by
  rintro ⟨e', w', hnext, -⟩
  rw [h] at hnext
  cases hnext

theorem cons_mem_rest_text : c :: w ∈ rest 0 ↔ Continues 0 c w := by
  have hnext : next 0 c w = some (if c = percent then 1 else 0, w) := rfl
  rw [continues_some hnext]
  show c :: w ∈ accepted ↔ _
  rw [cons_mem_accepted]
  split_ifs with hc
  · rw [or_iff_right fun h => h.1 hc, and_iff_right hc]
  · rw [or_iff_left fun h => hc h.1, and_iff_right hc]
    rfl

theorem cons_mem_rest_specifier : c :: w ∈ rest 5 ↔ Continues 5 c w := by
  show c :: w ∈ atSpecifier ↔ _
  rw [cons_mem_atSpecifier, class_specifier]
  have hnext : next 5 c w = if fmtClass c = fmtSpecifier then some (0, w) else none := by
    simp [next]
  by_cases hc : fmtClass c = fmtSpecifier
  · rw [if_pos hc] at hnext
    rw [continues_some hnext, and_iff_right hc]
    rfl
  · rw [if_neg hc] at hnext
    exact iff_of_false (fun h => hc h.1) (continues_none hnext)

theorem continues_congr {e e' : Nat} (h : next e c w = next e' c w) :
    Continues e c w ↔ Continues e' c w := by
  rw [Continues, Continues, h]

theorem cons_mem_rest_length : c :: w ∈ rest 4 ↔ Continues 4 c w := by
  show c :: w ∈ atLength ↔ _
  have hnext : next 4 c w = if fmtClass c = fmtLength then
      some (5, w.dropWhile fun c => fmtClass c = fmtLength) else next 5 c w := by
    simp [next]
  rw [cons_mem_atLength, class_length]
  by_cases hc : fmtClass c = fmtLength
  · have hspecifier : c :: w ∉ atSpecifier := by
      rw [cons_mem_atSpecifier, class_specifier, hc]
      exact fun h => absurd h.1 (by decide)
    rw [if_pos hc] at hnext
    rw [continues_some hnext, or_iff_left hspecifier, and_iff_right hc, mem_atLength_iff]
    rfl
  · rw [if_neg hc] at hnext
    rw [continues_congr hnext, ← cons_mem_rest_specifier, or_iff_right fun h => hc h.1]
    rfl

theorem cons_mem_rest_number : c :: w ∈ rest 3 ↔ Continues 3 c w := by
  show c :: w ∈ atNumber ↔ _
  have hnext : next 3 c w = if c = asterisk then some (4, w)
      else if isdigit c then some (4, w.dropWhile isdigit)
      else if fmtClass c = fmtPrecision then some (3, w) else next 4 c w := by
    simp [next]
  rw [cons_mem_atNumber, cons_mem_number_mul, mem_digits_atLength, class_point]
  by_cases hstar : c = asterisk
  · subst hstar
    have hlength : asterisk :: w ∉ atLength := by
      rw [cons_mem_atLength, cons_mem_atSpecifier]
      exact fun h => h.elim (fun h => absurd h.1 (by decide)) fun h => absurd h.1 (by decide)
    have hother : fmtClass asterisk ≠ fmtPrecision ∧ ¬isdigit asterisk = true := by decide
    rw [if_pos rfl] at hnext
    rw [continues_some hnext, or_iff_right fun h => hother.1 h.1, or_iff_left hlength,
      or_iff_right fun h => hother.2 h.1, and_iff_right rfl]
    rfl
  rw [if_neg hstar] at hnext
  by_cases hdigit : isdigit c = true
  · have hpoint : fmtClass c ≠ fmtPrecision := fun h =>
      (digit_other hdigit).2.1 (class_point.mpr h)
    rw [if_pos hdigit] at hnext
    rw [continues_some hnext, or_iff_right fun h => hpoint h.1,
      or_iff_left (digit_notMem_atLength hdigit), or_iff_left fun h => hstar h.1,
      and_iff_right hdigit]
    rfl
  rw [if_neg hdigit] at hnext
  have hnone : ¬((isdigit c = true ∧ w.dropWhile isdigit ∈ atLength) ∨
      (c = asterisk ∧ w ∈ atLength)) := fun h => h.elim (fun h => hdigit h.1) fun h => hstar h.1
  rw [or_iff_right hnone]
  by_cases hpoint : fmtClass c = fmtPrecision
  · have hlength : c :: w ∉ atLength := by
      rw [cons_mem_atLength, cons_mem_atSpecifier, class_length, class_specifier, hpoint]
      exact fun h => h.elim (fun h => absurd h.1 (by decide)) fun h => absurd h.1 (by decide)
    rw [if_pos hpoint] at hnext
    rw [continues_some hnext, or_iff_left hlength, and_iff_right hpoint]
    rfl
  · rw [if_neg hpoint] at hnext
    rw [continues_congr hnext, ← cons_mem_rest_length, or_iff_right fun h => hpoint h.1]
    rfl

theorem cons_mem_rest_width : c :: w ∈ rest 2 ↔ Continues 2 c w := by
  show c :: w ∈ atWidth ↔ _
  have hnext : next 2 c w = if c = asterisk then some (3, w)
      else if isdigit c then some (3, w.dropWhile isdigit) else next 3 c w := by
    by_cases hstar : c = asterisk
    · simp [next, hstar]
    · by_cases hdigit : isdigit c = true <;> simp [next, hstar, hdigit]
  rw [mem_atWidth, cons_mem_number_mul, mem_digits_atNumber]
  by_cases hstar : c = asterisk
  · have hdigit : ¬isdigit c = true := by
      rw [hstar]
      decide
    have hmore : c :: w ∈ atNumber → w ∈ atNumber := fun h => by
      have hcontinues : Continues 3 c w := cons_mem_rest_number.mp h
      have hnext : next 3 c w = some (4, w) := by simp [next, hstar]
      exact atLength_le ((continues_some hnext).mp hcontinues)
    rw [if_pos hstar] at hnext
    rw [continues_some hnext]
    constructor
    · rintro ((h | h) | h)
      · exact absurd h.1 hdigit
      · exact h.2
      · exact hmore h
    · exact fun h => .inl (.inr ⟨hstar, h⟩)
  rw [if_neg hstar] at hnext
  by_cases hdigit : isdigit c = true
  · have hmore : c :: w ∈ atNumber → w.dropWhile isdigit ∈ atNumber := fun h => by
      have hdrop : (c :: w).dropWhile isdigit ∈ atNumber :=
        mem_digits_atNumber.mp (mem_kstar_mul_of_mem h)
      rwa [List.dropWhile_cons, if_pos hdigit] at hdrop
    rw [if_pos hdigit] at hnext
    rw [continues_some hnext]
    constructor
    · rintro ((h | h) | h)
      · exact h.2
      · exact absurd h.1 hstar
      · exact hmore h
    · exact fun h => .inl (.inl ⟨hdigit, h⟩)
  · rw [if_neg hdigit] at hnext
    have hnone : ¬((isdigit c = true ∧ w.dropWhile isdigit ∈ atNumber) ∨
        (c = asterisk ∧ w ∈ atNumber)) := fun h => h.elim (fun h => hdigit h.1) fun h => hstar h.1
    rw [continues_congr hnext, ← cons_mem_rest_number, or_iff_right hnone]
    rfl

theorem cons_mem_rest_flag : c :: w ∈ rest 1 ↔ Continues 1 c w := by
  show c :: w ∈ (1 + flag) * atWidth ↔ _
  have hnext : next 1 c w = if fmtClass c = fmtFlags then some (2, w) else next 2 c w := by
    simp [next]
  rw [mem_opt_mul, flag, cons_mem_letter_mul, decide_eq_true_eq, class_flag]
  by_cases hc : fmtClass c = fmtFlags
  · -- '0' is a flag here, but the digits behind it may be the width all the same
    have hstar := (flagChars_cases c (class_flag.mpr hc)).1
    have hmore : c :: w ∈ atWidth → w ∈ atWidth := fun h => by
      have hcontinues : Continues 2 c w := cons_mem_rest_width.mp h
      by_cases hdigit : isdigit c = true
      · have hnext : next 2 c w = some (3, w.dropWhile isdigit) := by simp [next, hstar, hdigit]
        exact digits_atNumber_le (mem_digits_atNumber.mpr ((continues_some hnext).mp hcontinues))
      · have hnext : next 2 c w = none := by
          simp [next, hstar, hdigit, hc, fmtFlags, fmtPrecision, fmtLength, fmtSpecifier]
        exact absurd hcontinues (continues_none hnext)
    rw [if_pos hc] at hnext
    rw [continues_some hnext, and_iff_right hc]
    exact or_iff_left_of_imp hmore
  · rw [if_neg hc] at hnext
    rw [continues_congr hnext, ← cons_mem_rest_width, or_iff_right fun h => hc h.1]
    rfl

theorem cons_mem_rest {e : Nat} (he : e ≤ 5) : c :: w ∈ rest e ↔ Continues e c w := by
  interval_cases e
  · exact cons_mem_rest_text
  · exact cons_mem_rest_flag
  · exact cons_mem_rest_width
  · exact cons_mem_rest_number
  · exact cons_mem_rest_length
  · exact cons_mem_rest_specifier

theorem next_length {e e' : Nat} {w' : List UInt8} (h : next e c w = some (e', w')) :
    w'.length ≤ w.length := by
  have hdrop : ∀ p : UInt8 → Bool, (w.dropWhile p).length ≤ w.length := fun p =>
    (List.dropWhile_suffix p).length_le
  unfold next at h
  split_ifs at h <;> obtain ⟨-, rfl⟩ := Prod.mk.inj (Option.some.inj h)
  all_goals first | exact le_rfl | exact hdrop _

theorem asked_dropWhile {p : UInt8 → Bool}
    (hp : ∀ c, p c = true → c ≠ asterisk ∧ c ∉ specifierChars) (w : List UInt8) :
    asked true (w.dropWhile p) = asked true w := by
  induction w with
  | nil => rfl
  | cons c w ih =>
    rw [List.dropWhile_cons]
    split_ifs with hc
    · obtain ⟨hstar, hspecifier⟩ := hp c hc
      rw [ih, asked, if_neg hstar, if_neg hspecifier]
    · rfl

/-- What a string asks for, round by round. -/
theorem asked_next {e e' : Nat} {w' : List UInt8} (h : next e c w = some (e', w')) :
    asked (e ≠ 0) (c :: w) = marks e c ++ asked (e' ≠ 0) w' := by
  rcases Nat.eq_zero_or_pos e with rfl | hpos
  · obtain ⟨rfl, rfl⟩ := Prod.mk.inj (Option.some.inj h)
    have hnone : marks 0 c = [] := rfl
    rw [hnone, List.nil_append]
    show asked (c = percent) w = _
    by_cases hc : c = percent <;> simp [hc]
  have hne : e ≠ 0 := hpos.ne'
  have hplain : c ≠ asterisk → c ∉ specifierChars →
      asked true (c :: w) = marks e c ++ asked true w := fun hstar hspecifier => by
    rw [asked, if_neg hstar, if_neg hspecifier,
      marks_none ⟨hstar, fun hc => hspecifier (class_specifier.mpr hc)⟩ e, List.nil_append]
  have hsucc : ∀ n : Nat, decide (n + 1 ≠ 0) = true := fun n => decide_eq_true n.succ_ne_zero
  rw [decide_eq_true hne]
  rw [next, if_neg hne] at h
  split_ifs at h with hflag hstar hdigit hpoint hlength hspecifier <;>
    obtain ⟨rfl, rfl⟩ := Prod.mk.inj (Option.some.inj h)
  · refine hplain (flagChars_cases c (class_flag.mpr hflag.2)).1 ?_
    rw [class_specifier, hflag.2]
    decide
  · rw [asked, if_pos hstar.2, marks, if_pos ⟨hne, .inl hstar.2⟩, hsucc]
    rfl
  · obtain ⟨hstar', -, -, hspecifier⟩ := digit_other hdigit.2
    rw [hplain hstar' hspecifier, hsucc, asked_dropWhile fun c hc => ?_]
    exact ⟨(digit_other hc).1, (digit_other hc).2.2.2⟩
  · have hc : c = point := class_point.mpr hpoint.2
    exact hplain (hc ▸ by decide) (hc ▸ by decide)
  · have hplainLength : ∀ c, fmtClass c = fmtLength → c ≠ asterisk ∧ c ∉ specifierChars :=
      fun c hc => ⟨(fmtClass_high (by rw [hc]; decide)).1, by
        rw [class_specifier, hc]
        decide⟩
    rw [hplain (hplainLength c hlength.2).1 (hplainLength c hlength.2).2]
    show _ = _ ++ asked true _
    rw [asked_dropWhile fun c hc => hplainLength c (of_decide_eq_true hc)]
  · have hc := class_specifier.mpr hspecifier
    have hstar' : c ≠ asterisk := (fmtClass_high (by rw [hspecifier]; decide)).1
    rw [asked, if_neg hstar', if_pos hc, marks, if_pos ⟨hne, .inr hspecifier⟩]
    rfl

end Automaton

/-! ## Whole runs -/

theorem loop_bad {start n : Nat} {s : Vars} {input : List UInt8} (h : s.bad = true) :
    loop start n s input = .ok s := by
  cases n with
  | zero => rfl
  | succ n =>
    cases input with
    | nil => rfl
    | cons c input => rw [loop, if_pos h, pure_eq_ok]

/-- What a run that found nothing bad has read. -/
structure Reads (s s' : Vars) (input : List UInt8) : Prop where
  mem : input ∈ rest s.escape
  answered : ∀ m ∈ asked (s.escape ≠ 0) input, Answered m
  out_le : s.out ≤ s'.out
  takes : Takes ((asked (s.escape ≠ 0) input).flatMap wants) s.args s'.args

section Runs

variable {start n : Nat} {s s' : Vars} {input : List UInt8}

theorem reads_nil (s : Vars) : Reads s s [] where
  mem := nil_mem_rest s.escape
  answered := by simp [asked]
  out_le := le_rfl
  takes := by
    simp only [asked, List.flatMap_nil]
    exact takes_nil

theorem Reads.step {c : UInt8} {s'' : Vars} {input' : List UInt8} (hs : Ready s)
    (hstep : Advances s.escape s.out s.args c input s' input') (h : Reads s' s'' input') :
    Reads s s'' (c :: input) where
  mem := (cons_mem_rest hs.bound).mpr ⟨s'.escape, input', hstep.next, h.mem⟩
  answered := by
    rw [asked_next hstep.next]
    exact List.forall_mem_append.mpr ⟨hstep.answered, h.answered⟩
  out_le := hstep.out_le.trans h.out_le
  takes := by
    rw [asked_next hstep.next, List.flatMap_append]
    exact hstep.takes.append h.takes

theorem loop_reads (hs : Ready s) (hn : input.length ≤ n) (hok : loop start n s input = .ok s')
    (hgood : s'.bad = false) : Reads s s' input := by
  induction n generalizing s input with
  | zero =>
    obtain rfl := List.eq_nil_of_length_eq_zero (Nat.le_zero.mp hn)
    obtain rfl := Except.ok.inj hok
    exact reads_nil s
  | succ n ih =>
    cases input with
    | nil =>
      obtain rfl := Except.ok.inj hok
      exact reads_nil s
    | cons c input =>
      rw [loop, if_neg (by rw [hs.good]; decide)] at hok
      rcases step_cases hs with ⟨s₁, input', hstep, hadv⟩ | ⟨s₁, hstep, hbad, -⟩ | ⟨e, hstep, -⟩
      · rw [hstep, ok_bind] at hok
        have hlen := next_length hadv.next
        exact .step hs hadv (ih hadv.ready (by simp at hn; omega) hok)
      · rw [hstep, ok_bind] at hok
        dsimp only at hok
        rw [loop_bad hbad] at hok
        rw [← Except.ok.inj hok, hbad] at hgood
        cases hgood
      · rw [hstep, error_bind] at hok
        cases hok

/-- A string of the accepted form is read to its end if its arguments are there and each of its
specifiers is printed. -/
theorem loop_runs (hs : Ready s) (hn : input.length ≤ n) (hmem : input ∈ rest s.escape)
    (hanswered : ∀ m ∈ asked (s.escape ≠ 0) input, Answered m)
    (hargs : (asked (s.escape ≠ 0) input).flatMap wants <+: s.args.map Arg.kind) :
    ∃ s', loop start n s input = .ok s' ∧ s'.bad = false := by
  induction n generalizing s input with
  | zero => exact ⟨s, rfl, hs.good⟩
  | succ n ih =>
    cases input with
    | nil => exact ⟨s, rfl, hs.good⟩
    | cons c input =>
      obtain ⟨e', input', hnext, hmem'⟩ := (cons_mem_rest hs.bound).mp hmem
      rw [asked_next hnext] at hanswered hargs
      rw [List.flatMap_append] at hargs
      obtain ⟨hfirst, hlater⟩ := List.forall_mem_append.mp hanswered
      have hlen := next_length hnext
      rw [loop, if_neg (by rw [hs.good]; decide)]
      rcases step_cases hs with
        ⟨s₁, input₁, hstep, hadv⟩ | ⟨s₁, -, -, hnone⟩ | ⟨e, -, hmark, hstops⟩
      · obtain ⟨rfl, rfl⟩ := Prod.mk.inj (Option.some.inj (hnext.symm.trans hadv.next))
        rw [hstep, ok_bind]
        exact ih hadv.ready (by simp at hn; omega) hmem' hlater (hadv.takes.later hargs)
      · rw [hnone] at hnext
        cases hnext
      · rw [hmark] at hfirst hargs
        rw [List.flatMap_singleton] at hargs
        rcases hstops with ⟨what, -, hno⟩ | ⟨msg, -, hno⟩
        · exact absurd ((List.prefix_append ..).trans hargs) hno
        · exact absurd (hfirst c (List.mem_singleton_self c)) hno

/-- No assertion fails on the way. -/
theorem loop_error {e : Halt} (hs : Ready s) (hn : input.length ≤ n)
    (herr : loop start n s input = .error e) :
    (∃ what, e = .fault what) ∨ ∃ msg, e = .panic msg := by
  induction n generalizing s input with
  | zero => cases herr
  | succ n ih =>
    cases input with
    | nil => cases herr
    | cons c input =>
      rw [loop, if_neg (by rw [hs.good]; decide)] at herr
      rcases step_cases hs with
        ⟨s₁, input', hstep, hadv⟩ | ⟨s₁, hstep, hbad, -⟩ | ⟨e', hstep, -, hstops⟩
      · rw [hstep, ok_bind] at herr
        have hlen := next_length hadv.next
        exact ih hadv.ready (by simp at hn; omega) herr
      · rw [hstep, ok_bind] at herr
        dsimp only at herr
        rw [loop_bad hbad] at herr
        cases herr
      · rw [hstep, error_bind] at herr
        obtain rfl := Except.error.inj herr
        exact hstops.imp (fun h => h.imp fun _ h => h.1) fun h => h.imp fun _ h => h.1

end Runs

/-! ## vsprintf -/

/-- Every specifier of the string has a case in __print_arg that prints. -/
def Printable (fmt : Text) : Prop := ∀ m ∈ asked false fmt.chars, Answered m

/-- The arguments begin with what the string asks for. -/
def Matching (fmt : Text) (args : List Arg) : Prop :=
  (asked false fmt.chars).flatMap wants <+: args.map Arg.kind

instance (fmt : Text) : Decidable (Printable fmt) :=
  decidable_of_iff ((asked false fmt.chars).Forall fun m => m = asterisk ∨ m ∈ printed)
    List.forall_iff_forall_mem

instance (fmt : Text) (args : List Arg) : Decidable (Matching fmt args) :=
  inferInstanceAs (Decidable ((asked false fmt.chars).flatMap wants <+: args.map Arg.kind))

/-- vsprintf returns a length exactly for the strings of the documented form, takes their arguments
in order, and lays out every number with at most one flag. -/
structure Conforms (mem : Memory) (str : Nat) (fmt : Text) (args : List Arg) : Prop where
  returns : (∃ mem' ret rest, vsprintf mem str fmt args = .ok (mem', ret, rest) ∧ 0 ≤ ret) ↔
    fmt.chars ∈ documented
  takes : ∀ mem' ret rest, vsprintf mem str fmt args = .ok (mem', ret, rest) → 0 ≤ ret →
    Takes ((asked false fmt.chars).flatMap wants) args rest
  oneFlag : vsprintf mem str fmt args ≠ .error (.assertFailed "(flags&(flags-1)) == 0")

section Vsprintf

variable {mem mem' : Memory} {str : Nat} {fmt : Text} {args rest' : List Arg} {ret : Int}

/-- The locals before the loop. -/
def enter (mem : Memory) (str : Nat) (args : List Arg) : Vars :=
  { mem := mem, out := str, args := args }

theorem enter_ready (mem : Memory) (hstr : str ≠ 0) (args : List Arg) :
    Ready (enter mem str args) :=
  ⟨rfl, Nat.zero_le 5, Nat.zero_and _, fun _ => rfl, hstr⟩

theorem vsprintf_eq (hstr : str ≠ 0) : vsprintf mem str fmt args =
    loop str fmt.chars.length (enter mem str args) fmt.chars >>= fun s =>
      .ok (Function.update s.mem s.out 0, if s.bad then -1 else (s.out : Int) - str, s.args) := by
  rw [vsprintf, assert_pos hstr]
  rfl

theorem vsprintf_reads (hstr : str ≠ 0) (hok : vsprintf mem str fmt args = .ok (mem', ret, rest'))
    (hret : 0 ≤ ret) : fmt.chars ∈ accepted ∧ Printable fmt ∧
      Takes ((asked false fmt.chars).flatMap wants) args rest' := by
  rw [vsprintf_eq hstr, bind_eq_ok] at hok
  obtain ⟨s, hloop, heq⟩ := hok
  obtain ⟨-, hend⟩ := Prod.mk.inj (Except.ok.inj heq)
  obtain ⟨hval, rfl⟩ := Prod.mk.inj hend
  have hgood : s.bad = false := by
    by_contra hbad
    rw [Bool.not_eq_false] at hbad
    rw [if_pos hbad] at hval
    omega
  have hreads := loop_reads (enter_ready mem hstr args) le_rfl hloop hgood
  exact ⟨hreads.mem, hreads.answered, hreads.takes⟩

theorem vsprintf_runs (hstr : str ≠ 0) (hmem : fmt.chars ∈ accepted) (hprint : Printable fmt)
    (hargs : Matching fmt args) :
    ∃ mem' ret rest', vsprintf mem str fmt args = .ok (mem', ret, rest') ∧ 0 ≤ ret := by
  obtain ⟨s, hloop, hgood⟩ : ∃ s, loop str fmt.chars.length (enter mem str args) fmt.chars = .ok s ∧
      s.bad = false := loop_runs (enter_ready mem hstr args) le_rfl hmem hprint hargs
  have hle : str ≤ s.out :=
    (loop_reads (enter_ready mem hstr args) le_rfl hloop hgood).out_le
  have hcall : vsprintf mem str fmt args =
      .ok (Function.update s.mem s.out 0, (s.out : Int) - str, s.args) := by
    rw [vsprintf_eq hstr, hloop, ok_bind, hgood]
    rfl
  exact ⟨_, _, _, hcall, by omega⟩

theorem vsprintf_oneFlag (hstr : str ≠ 0) :
    vsprintf mem str fmt args ≠ .error (.assertFailed "(flags&(flags-1)) == 0") := by
  intro herr
  rw [vsprintf_eq hstr, bind_eq_error] at herr
  rcases herr with hloop | ⟨s, -, hno⟩
  · rcases loop_error (enter_ready mem hstr args) le_rfl hloop with ⟨what, hwhat⟩ | ⟨msg, hmsg⟩
    · cases hwhat
    · cases hmsg
  · cases hno

/-- vsprintf conforms on a string if a documented one asks for no specifier that is not printed,
and an undocumented one is not of the looser form that is accepted. -/
theorem vsprintf_conforms_iff (hstr : str ≠ 0) (hargs : fmt.chars ∈ accepted → Matching fmt args) :
    Conforms mem str fmt args ↔ (fmt.chars ∈ documented → Printable fmt) ∧
      (fmt.chars ∈ accepted → Printable fmt → fmt.chars ∈ documented) := by
  constructor
  · intro h
    refine ⟨fun hdoc => ?_, fun hmem hprint => ?_⟩
    · obtain ⟨mem', ret, rest', hok, hret⟩ := h.returns.mpr hdoc
      exact (vsprintf_reads hstr hok hret).2.1
    · exact h.returns.mp (vsprintf_runs hstr hmem hprint (hargs hmem))
  · rintro ⟨hprintable, hdocumented⟩
    refine ⟨⟨?_, fun hdoc => ?_⟩, fun mem' ret rest' hok hret => ?_, vsprintf_oneFlag hstr⟩
    · rintro ⟨mem', ret, rest', hok, hret⟩
      obtain ⟨hmem, hprint, -⟩ := vsprintf_reads hstr hok hret
      exact hdocumented hmem hprint
    · have hmem := documented_le hdoc
      exact vsprintf_runs hstr hmem (hprintable hdoc) (hargs hmem)
    · exact (vsprintf_reads hstr hok hret).2.2

end Vsprintf

def text (s : List Char) (h : (s.map chr).Forall (· ≠ 0)) : Text :=
  ⟨s.map chr, List.forall_iff_forall_mem.mp h⟩

theorem decimal_documented : (text ['%', 'd'] (by decide)).chars ∈ documented := by
  have h : [chr '%', chr 'd'] ∈ conversion := by
    refine cons_mem_letter_mul.mpr ⟨by decide, ?_⟩
    refine mem_opt_mul.mpr (.inr (mem_opt_mul.mpr (.inr (mem_opt_mul.mpr (.inr ?_)))))
    exact mem_kstar_mul_of_mem ⟨chr 'd', by decide, rfl⟩
  exact ⟨[[chr '%', chr 'd']], rfl, fun y hy => List.mem_singleton.mp hy ▸ .inr h⟩

theorem vsprintf_conforms_decimal :
    Conforms (fun _ => 0) 1 (text ['%', 'd'] (by decide)) [.int 7] :=
  (vsprintf_conforms_iff (by decide) fun _ => by decide).mpr
    ⟨fun _ => by decide, fun _ _ => decimal_documented⟩

theorem nil_notMem_number_mul {l : Language UInt8} : [] ∉ number * l := by
  rw [number, mem_add_mul, mul_assoc]
  exact fun h => h.elim nil_notMem_letter_mul nil_notMem_letter_mul

/-- A '%' with nothing behind it is no conversion. -/
theorem percent_undocumented : [percent] ∉ documented := by
  have hspecifier : ∀ l : Language UInt8, [] ∉ lengths * (specifier * l) := fun l h =>
    nil_notMem_letter_mul (nil_mem_many_mul.mp h)
  rw [documented, ← Language.one_add_self_mul_kstar_eq_kstar, Language.mem_add, mem_add_mul]
  rintro (hnil | hordinary | hconversion)
  · exact List.cons_ne_nil _ _ hnil
  · exact absurd (cons_mem_letter_mul.mp hordinary).1 (by decide)
  · simp only [conversion, mul_assoc] at hconversion
    rcases mem_opt_mul.mp (cons_mem_letter_mul.mp hconversion).2 with hflag | hflag
    · exact nil_notMem_letter_mul hflag
    rcases mem_opt_mul.mp hflag with hwidth | hwidth
    · exact nil_notMem_number_mul hwidth
    rcases mem_opt_mul.mp hwidth with hprecision | hprecision
    · rw [mul_assoc] at hprecision
      exact nil_notMem_letter_mul hprecision
    · exact hspecifier _ hprecision

theorem percent_accepted : ¬Conforms (fun _ => 0) 1 (text ['%'] (by decide)) [] := fun h =>
  percent_undocumented (h.returns.mp ⟨_, 0, [], rfl, le_rfl⟩)

end RxdOs.Libk.FormatGrammar
