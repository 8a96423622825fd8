/- RxdOs/Lib/Search
   digest: The linear search `for (i = from; i < to; ++i) if (p(i)) break;` and its result. -/

import Mathlib.Tactic

set_option autoImplicit false
set_option relaxedAutoImplicit false

namespace RxdOs.Lib.Search

variable (p : Nat → Prop) [DecidablePred p]

/-- The index the search stops at, with `n` candidates left from `i`; `i + n` when none holds. -/
def firstFrom : Nat → Nat → Nat
  | 0, i => i
  | n + 1, i => if p i then i else firstFrom n (i + 1)

variable {p}

theorem firstFrom_spec (n i : Nat) :
    (i ≤ firstFrom p n i ∧ firstFrom p n i ≤ i + n) ∧
      (∀ k, i ≤ k → k < firstFrom p n i → ¬p k) ∧
      (firstFrom p n i < i + n → p (firstFrom p n i)) := by
  induction n generalizing i with
  | zero => exact ⟨⟨le_rfl, le_rfl⟩, fun k hk hlt => by simp only [firstFrom] at hlt; omega,
      fun hlt => by simp [firstFrom] at hlt⟩
  | succ n ih =>
    simp only [firstFrom]
    split_ifs with hp
    · exact ⟨⟨le_rfl, by omega⟩, fun k hk hlt => by omega, fun _ => hp⟩
    · obtain ⟨⟨hlo, hhi⟩, hbelow, hat⟩ := ih (i + 1)
      refine ⟨⟨by omega, by omega⟩, fun k hk hlt => ?_, fun hlt => hat (by omega)⟩
      by_cases hki : k = i
      · rwa [hki]
      · exact hbelow k (by omega) hlt

/-- The search is determined by its specification. -/
theorem firstFrom_eq {n i r : Nat} (hlo : i ≤ r) (hhi : r ≤ i + n)
    (hbelow : ∀ k, i ≤ k → k < r → ¬p k) (hat : r < i + n → p r) : firstFrom p n i = r := by
  obtain ⟨⟨hlo', hhi'⟩, hbelow', hat'⟩ := firstFrom_spec (p := p) n i
  rcases Nat.lt_trichotomy (firstFrom p n i) r with hlt | heq | hgt
  · exact absurd (hat' (by omega)) (hbelow _ hlo' hlt)
  · exact heq
  · exact absurd (hat (by omega)) (hbelow' r hlo hgt)

end RxdOs.Lib.Search
