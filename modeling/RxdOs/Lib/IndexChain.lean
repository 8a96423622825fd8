/- RxdOs/Lib/IndexChain
   digest: Linked chains of indices kept in an array, `next i` being the link stored at `i`. -/

import Mathlib.Tactic

set_option autoImplicit false
set_option relaxedAutoImplicit false

namespace RxdOs.Lib.IndexChain

universe u

variable {ι : Type u} (next : ι → ι) (stop : ι)

/-- The chain starting at `x` visits exactly `l`, in this order, and ends in `stop`. -/
def Chain : ι → List ι → Prop
  | x, [] => x = stop
  | x, a :: l => x = a ∧ a ≠ stop ∧ Chain (next a) l

variable {next stop}

@[simp] theorem chain_nil {x : ι} : Chain next stop x [] ↔ x = stop := Iff.rfl

theorem Chain.eq_nil_iff {x : ι} {l : List ι} (h : Chain next stop x l) : l = [] ↔ x = stop := by
  cases l with
  | nil => simpa using h
  | cons a l =>
    obtain ⟨rfl, hne, -⟩ := h
    simp [hne]

/-- The start of a chain that has not ended is its first element. -/
theorem Chain.eq_cons {x : ι} {l : List ι} (h : Chain next stop x l) (hx : x ≠ stop) :
    ∃ l', l = x :: l' ∧ Chain next stop (next x) l' := by
  cases l with
  | nil => exact absurd h hx
  | cons a l =>
    obtain ⟨rfl, -, htail⟩ := h
    exact ⟨l, rfl, htail⟩

theorem Chain.unique {x : ι} {l l' : List ι} (h : Chain next stop x l)
    (h' : Chain next stop x l') : l = l' := by
  induction l generalizing x l' with
  | nil => exact (h'.eq_nil_iff.mpr h).symm
  | cons a l ih =>
    obtain ⟨rfl, hne, htail⟩ := h
    obtain ⟨l'', rfl, htail'⟩ := h'.eq_cons hne
    rw [ih htail htail']

theorem Chain.suffix {x a : ι} {l₁ l₂ : List ι} (h : Chain next stop x (l₁ ++ a :: l₂)) :
    Chain next stop a (a :: l₂) := by
  induction l₁ generalizing x with
  | nil =>
    obtain ⟨rfl, hne, htail⟩ := h
    exact ⟨rfl, hne, htail⟩
  | cons b l₁ ih => exact ih h.2.2

/-- A chain that ends never comes back to where it was. -/
theorem Chain.nodup {x : ι} {l : List ι} (h : Chain next stop x l) : l.Nodup := by
  induction l generalizing x with
  | nil => exact List.nodup_nil
  | cons a l ih =>
    obtain ⟨rfl, hne, htail⟩ := h
    refine List.nodup_cons.mpr ⟨fun hmem => ?_, ih htail⟩
    obtain ⟨l₁, l₂, rfl⟩ := List.append_of_mem hmem
    have heq : x :: (l₁ ++ x :: l₂) = x :: l₂ := Chain.unique ⟨rfl, hne, htail⟩ htail.suffix
    have hlen := congrArg List.length heq
    simp only [List.length_cons, List.length_append] at hlen
    omega

variable [DecidableEq ι]

/-- A store outside the chain leaves it alone. -/
theorem Chain.update {x a b : ι} {l : List ι} (h : Chain next stop x l) (ha : a ∉ l) :
    Chain (Function.update next a b) stop x l := by
  induction l generalizing x with
  | nil => exact h
  | cons c l ih =>
    obtain ⟨rfl, hne, htail⟩ := h
    obtain ⟨hac, hal⟩ : a ≠ x ∧ a ∉ l := by simpa using ha
    refine ⟨rfl, hne, ?_⟩
    rw [Function.update_of_ne (Ne.symm hac)]
    exact ih htail hal

/-- Storing the old start at a new index puts that index in front. -/
theorem Chain.push {x a : ι} {l : List ι} (h : Chain next stop x l) (ha : a ∉ l)
    (hne : a ≠ stop) : Chain (Function.update next a x) stop a (a :: l) :=
  ⟨rfl, hne, by rw [Function.update_self]; exact h.update ha⟩

end RxdOs.Lib.IndexChain
