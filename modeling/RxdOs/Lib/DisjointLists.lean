/- RxdOs/Lib/DisjointLists
   digest: Several lists laid out in one state without a common node, and the rule by which a
   write to one of them leaves the others alone. -/

import Mathlib.Tactic

set_option autoImplicit false
set_option relaxedAutoImplicit false

namespace RxdOs.Lib.DisjointLists

universe u v w

variable {σ : Type u} {ι : Type v} {κ : Type w}

/-- How lists lie in a state: what it means that the list of a head has some members, the nodes
the list occupies, and that two states agree on them. -/
structure Layout (σ : Type u) (ι : Type v) (κ : Type w) where
  IsRep : σ → ι → List κ → Prop
  owned : ι → List κ → List κ
  Same : σ → σ → ι → List κ → Prop
  congr : ∀ {s s' i xs}, IsRep s i xs → Same s s' i xs → IsRep s' i xs

variable {L : Layout σ ι κ} {s s' : σ} {b b' : ι → Option (List κ)} {i : ι} {xs xs' : List κ}

/-- Each head has the list that `b` says, and no two lists share a node. -/
structure Represents (L : Layout σ ι κ) (s : σ) (b : ι → Option (List κ)) : Prop where
  each : ∀ i xs, b i = some xs → L.IsRep s i xs
  apart : ∀ i j xs ys, i ≠ j → b i = some xs → b j = some ys →
    (L.owned i xs).Disjoint (L.owned j ys)

/-- A node of no list. -/
def Free (L : Layout σ ι κ) (b : ι → Option (List κ)) (x : κ) : Prop :=
  ∀ i xs, b i = some xs → x ∉ L.owned i xs

/-- Lists that have the members they had are untouched. -/
def Frame (L : Layout σ ι κ) (s s' : σ) (b b' : ι → Option (List κ)) : Prop :=
  ∀ i xs, b i = some xs → b' i = some xs → L.Same s s' i xs

/-- A node of a list is in no other one. -/
theorem Represents.not_owned (h : Represents L s b) {j : ι} {ys : List κ} {x : κ}
    (hi : b i = some xs) (hj : b j = some ys) (hne : j ≠ i) (hx : x ∈ L.owned j ys) :
    x ∉ L.owned i xs :=
  fun hmem => h.apart j i ys xs hne hj hi hx hmem

variable [DecidableEq ι]

/-- One list gets other members, from its own nodes and free ones; the rest stays. -/
theorem Represents.edit (h : Represents L s b) (hi : b i = some xs) (hne : xs' ≠ xs)
    (hrep : L.IsRep s' i xs')
    (howned : ∀ x ∈ L.owned i xs', x ∈ L.owned i xs ∨ Free L b x)
    (hsame : ∀ j ys, j ≠ i → b j = some ys → L.Same s s' j ys) :
    Represents L s' (Function.update b i (some xs')) ∧
      Frame L s s' b (Function.update b i (some xs')) := by
  have hedited : ∀ j ys, j ≠ i → b j = some ys → (L.owned i xs').Disjoint (L.owned j ys) := by
    intro j ys hji hj x hx hxj
    obtain hold | hfree := howned x hx
    · exact h.not_owned hi hj hji hxj hold
    · exact hfree j ys hj hxj
  refine ⟨⟨fun j ys hj => ?_, fun j k ys zs hjk hj hk => ?_⟩, fun j ys hj hj' => ?_⟩
  · by_cases hji : j = i
    · subst hji
      rw [Function.update_self] at hj
      cases hj
      exact hrep
    · rw [Function.update_of_ne hji] at hj
      exact L.congr (h.each j ys hj) (hsame j ys hji hj)
  · by_cases hji : j = i
    · subst hji
      rw [Function.update_self] at hj
      rw [Function.update_of_ne (Ne.symm hjk)] at hk
      cases hj
      exact hedited k zs (Ne.symm hjk) hk
    · rw [Function.update_of_ne hji] at hj
      by_cases hki : k = i
      · subst hki
        rw [Function.update_self] at hk
        cases hk
        exact (hedited j ys hji hj).symm
      · rw [Function.update_of_ne hki] at hk
        exact h.apart j k ys zs hjk hj hk
  · by_cases hji : j = i
    · subst hji
      rw [Function.update_self] at hj'
      rw [hi] at hj
      exact absurd (Option.some.inj (hj'.trans hj.symm)) hne
    · exact hsame j ys hji hj

/-- A change that only one list feels. -/
theorem map_eq_update {f : List κ → List κ} (hi : b i = some xs)
    (hother : ∀ j ys, j ≠ i → b j = some ys → f ys = ys) :
    (fun j => (b j).map f) = Function.update b i (some (f xs)) := by
  funext j
  by_cases hji : j = i
  · subst hji
    rw [Function.update_self, hi, Option.map_some]
  · rw [Function.update_of_ne hji]
    cases hj : b j with
    | none => rfl
    | some ys => rw [Option.map_some, hother j ys hji hj]

end RxdOs.Lib.DisjointLists
