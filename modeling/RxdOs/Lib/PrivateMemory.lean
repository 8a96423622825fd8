/- RxdOs/Lib/PrivateMemory
   digest: Owners with a memory each, who store and spawn others; what an owner's memory holds
   depends on its own acts and on those of its ancestors before they spawned. -/

import Mathlib.Tactic

set_option autoImplicit false
set_option relaxedAutoImplicit false

namespace RxdOs.Lib.PrivateMemory

universe u v w

variable {ι : Type u} {α : Type v} {β : Type w}

/-- What happens: an owner stores, an owner makes another, or nobody's memory is concerned. -/
inductive Act (ι : Type u) (α : Type v) (β : Type w)
  | store (i : ι) (a : α) (v : β)
  | spawn (parent child : ι)
  | other

section Memories

variable [DecidableEq ι] [DecidableEq α]

/-- Every owner's memory after some acts, latest first; a child starts with what `inherit` makes of
its parent's. -/
def memories (inherit : (α → β) → α → β) (start : ι → α → β) : List (Act ι α β) → ι → α → β
  | [] => start
  | .store i a v :: acts =>
    Function.update (memories inherit start acts) i
      (Function.update (memories inherit start acts i) a v)
  | .spawn parent child :: acts =>
    Function.update (memories inherit start acts) child
      (inherit (memories inherit start acts parent))
  | .other :: acts => memories inherit start acts

/-- The acts an owner's memory comes from: its own, and those of its parent before it was made. -/
def lineage : List (Act ι α β) → ι → List (Act ι α β)
  | [], _ => []
  | .store i a v :: acts, j => if j = i then .store i a v :: lineage acts j else lineage acts j
  | .spawn parent child :: acts, j =>
    if j = child then .spawn parent child :: lineage acts parent else lineage acts j
  | .other :: acts, j => lineage acts j

variable {inherit : (α → β) → α → β} {start start' : ι → α → β} {acts acts' : List (Act ι α β)}
  {j : ι}

theorem memories_lineage (acts : List (Act ι α β)) (j : ι) :
    memories inherit start (lineage acts j) j = memories inherit start acts j := by
  induction acts generalizing j with
  | nil => rfl
  | cons act acts ih =>
    cases act with
    | store i a v =>
      by_cases hij : j = i
      · subst hij
        rw [lineage, if_pos rfl, memories, memories, Function.update_self, Function.update_self, ih]
      · rw [lineage, if_neg hij, ih, memories, Function.update_of_ne hij]
    | spawn parent child =>
      by_cases hchild : j = child
      · subst hchild
        rw [lineage, if_pos rfl, memories, memories, Function.update_self, Function.update_self, ih]
      · rw [lineage, if_neg hchild, ih, memories, Function.update_of_ne hchild]
    | other => exact ih j

/-- Owners with one lineage have one memory. -/
theorem memories_eq_of_lineage (hstart : start = start')
    (h : lineage acts j = lineage acts' j) :
    memories inherit start acts j = memories inherit start' acts' j := by
  rw [← memories_lineage acts j, h, hstart, memories_lineage acts' j]

theorem memories_store_self (i : ι) (a : α) (v : β) : memories inherit start
    (.store i a v :: acts) i = Function.update (memories inherit start acts i) a v :=
  Function.update_self ..

theorem memories_store_of_ne {i : ι} {a : α} {v : β} (h : j ≠ i) :
    memories inherit start (.store i a v :: acts) j = memories inherit start acts j :=
  Function.update_of_ne h ..

theorem memories_spawn_self (parent child : ι) : memories inherit start
    (.spawn parent child :: acts) child = inherit (memories inherit start acts parent) :=
  Function.update_self ..

theorem memories_spawn_of_ne {parent child : ι} (h : j ≠ child) :
    memories inherit start (.spawn parent child :: acts) j = memories inherit start acts j :=
  Function.update_of_ne h ..

end Memories

end RxdOs.Lib.PrivateMemory
