/- RxdOs/Lib/Grammar
   digest: Languages put together from single letters: what the first letter of a word says, and
   when a reader may take all letters of a kind at once. -/

import Mathlib.Computability.Language
import Mathlib.Tactic

set_option autoImplicit false
set_option relaxedAutoImplicit false

namespace RxdOs.Lib.Grammar

open Computability

universe u

variable {α : Type u}

/-- The words of one letter that has a property. -/
def letter (p : α → Bool) : Language α := {w | ∃ c, p c = true ∧ w = [c]}

section Letters

variable {p : α → Bool} {l m : Language α} {c : α} {w : List α}

theorem nil_notMem_letter_mul : [] ∉ letter p * l := by
  rintro ⟨v, ⟨c, -, rfl⟩, w, -, h⟩
  exact List.cons_ne_nil c w h

theorem cons_mem_letter_mul : c :: w ∈ letter p * l ↔ p c = true ∧ w ∈ l := by
  constructor
  · rintro ⟨v, ⟨c', hc', rfl⟩, w', hw', h⟩
    obtain ⟨rfl, rfl⟩ := List.cons.inj h
    exact ⟨hc', hw'⟩
  · rintro ⟨hc, hw⟩
    exact ⟨[c], ⟨c, hc, rfl⟩, w, hw, rfl⟩

/-- A part that may be missing. -/
theorem mem_opt_mul : w ∈ (1 + l) * m ↔ w ∈ l * m ∨ w ∈ m := by
  rw [add_mul, one_mul, Language.mem_add, or_comm]

theorem mem_add_mul {l' : Language α} : w ∈ (l + l') * m ↔ w ∈ l * m ∨ w ∈ l' * m := by
  rw [add_mul, Language.mem_add]

theorem kstar_mul_eq : l∗ * m = m + l * (l∗ * m) := by
  conv_lhs => rw [← Language.one_add_self_mul_kstar_eq_kstar, add_mul, one_mul, mul_assoc]

theorem mem_kstar_mul_of_mem (h : w ∈ m) : w ∈ l∗ * m := by
  rw [kstar_mul_eq]
  exact .inl h

/-- A part that may come any number of times. -/
theorem nil_mem_many_mul : [] ∈ (letter p)∗ * l ↔ [] ∈ l := by
  rw [kstar_mul_eq, Language.mem_add, or_iff_left nil_notMem_letter_mul]

theorem cons_mem_many_mul :
    c :: w ∈ (letter p)∗ * l ↔ (p c = true ∧ w ∈ (letter p)∗ * l) ∨ c :: w ∈ l := by
  rw [kstar_mul_eq, Language.mem_add, cons_mem_letter_mul, ← kstar_mul_eq, or_comm]

/-- A reader may drop all such letters at once if what follows does not depend on their number. -/
theorem mem_many_mul_iff (hl : ∀ w ∈ l, w.dropWhile p ∈ l) :
    w ∈ (letter p)∗ * l ↔ w.dropWhile p ∈ l := by
  induction w with
  | nil => exact nil_mem_many_mul
  | cons c w ih =>
    rw [cons_mem_many_mul, List.dropWhile_cons]
    split_ifs with hc
    · constructor
      · rintro (⟨-, hw⟩ | hw)
        · exact ih.mp hw
        · have hdrop := hl _ hw
          rwa [List.dropWhile_cons, if_pos hc] at hdrop
      · exact fun hw => .inl ⟨hc, ih.mpr hw⟩
    · exact or_iff_right fun h => hc h.1

end Letters

end RxdOs.Lib.Grammar
