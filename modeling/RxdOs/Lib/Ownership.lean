/- RxdOs/Lib/Ownership
   digest: Lists of owners whose shares of a resource are pairwise disjoint, under adding
   an owner with a fresh share and removing one. -/

import Mathlib.Tactic
import Mathlib.Order.CompletePartialOrder

set_option autoImplicit false
set_option relaxedAutoImplicit false

namespace RxdOs.Lib.Ownership

universe u v

variable {β : Type u} {ι : Type v} (share : β → Set ι)

def Owned (l : List β) (i : ι) : Prop := ∃ b ∈ l, i ∈ share b

def Exclusive (l : List β) : Prop := l.Pairwise fun a b => Disjoint (share a) (share b)

variable {share}

@[simp] theorem not_owned_nil (i : ι) : ¬Owned share [] i := by
  simp [Owned]

@[simp] theorem owned_cons {b : β} {l : List β} {i : ι} :
    Owned share (b :: l) i ↔ i ∈ share b ∨ Owned share l i := by
  simp [Owned]

theorem Owned.perm {l l' : List β} (h : l.Perm l') {i : ι} :
    Owned share l i ↔ Owned share l' i := by
  simp only [Owned, h.mem_iff]

theorem Exclusive.perm {l l' : List β} (h : l.Perm l') (hl : Exclusive share l) :
    Exclusive share l' :=
  h.pairwise hl fun hab => hab.symm

@[simp] theorem exclusive_nil : Exclusive share [] := List.Pairwise.nil

/-- An owner whose share nobody holds may join. -/
theorem Exclusive.cons {b : β} {l : List β} (hl : Exclusive share l)
    (hfresh : ∀ i ∈ share b, ¬Owned share l i) : Exclusive share (b :: l) := by
  refine List.pairwise_cons.mpr ⟨fun a ha => ?_, hl⟩
  rw [Set.disjoint_left]
  intro i hb hi
  exact hfresh i hb ⟨a, ha, hi⟩

theorem Exclusive.not_owned {b : β} {l : List β} (h : Exclusive share (b :: l)) {i : ι}
    (hi : i ∈ share b) : ¬Owned share l i := by
  rintro ⟨a, ha, hia⟩
  exact Set.disjoint_left.mp ((List.pairwise_cons.mp h).1 a ha) hi hia

theorem Exclusive.of_cons {b : β} {l : List β} (h : Exclusive share (b :: l)) :
    Exclusive share l :=
  (List.pairwise_cons.mp h).2

section Erase

variable [BEq β] [LawfulBEq β]

theorem Exclusive.cons_erase {b : β} {l : List β} (hb : b ∈ l) (hl : Exclusive share l) :
    Exclusive share (b :: l.erase b) :=
  hl.perm (List.perm_cons_erase hb)

theorem Exclusive.erase {b : β} {l : List β} (hb : b ∈ l) (hl : Exclusive share l) :
    Exclusive share (l.erase b) :=
  (hl.cons_erase hb).of_cons

/-- Removing an owner releases exactly its share. -/
theorem Exclusive.owned_erase {b : β} {l : List β} (hb : b ∈ l) (hl : Exclusive share l) {i : ι} :
    Owned share (l.erase b) i ↔ Owned share l i ∧ i ∉ share b := by
  have hex := hl.cons_erase hb
  rw [Owned.perm (List.perm_cons_erase hb), owned_cons]
  constructor
  · intro hi
    exact ⟨.inr hi, fun hib => hex.not_owned hib hi⟩
  · rintro ⟨hib | hi, hn⟩
    · exact absurd hib hn
    · exact hi

end Erase

end RxdOs.Lib.Ownership
