/- RxdOs/Lib/BoundedFifo
   digest: A bounded first-in first-out queue that can go back to a mark, and what its history
   says about the values in it. -/

import RxdOs.Lib.Execution

set_option autoImplicit false
set_option relaxedAutoImplicit false

namespace RxdOs.Lib.BoundedFifo

open RxdOs.Lib.Execution

universe u

variable {α : Type u}

/-- The calls of a queue. -/
inductive Op (α : Type u)
  | init
  | enq (value : α)
  | deq
  | save
  | restore

/-- The values stored, oldest first; and the values taken out since the last mark, as long as
nothing was put in. -/
structure Fifo (α : Type u) where
  items : List α
  since : Option (List α)

def Fifo.empty : Fifo α := ⟨[], none⟩

/-- What a call answers and leaves, where the queue allows it. -/
def Fifo.step (cap : Nat) (f : Fifo α) : Op α → Except PUnit.{u + 1} (Option α × Fifo α)
  | .init => .ok (none, .empty)
  | .enq v => if f.items.length < cap then .ok (none, ⟨f.items ++ [v], none⟩) else .error ⟨⟩
  | .deq =>
    match f.items with
    | [] => .error ⟨⟩
    | v :: rest => .ok (some v, ⟨rest, f.since.map (· ++ [v])⟩)
  | .save => .ok (none, ⟨f.items, some []⟩)
  | .restore =>
    match f.since with
    | none => .error ⟨⟩
    | some taken => .ok (none, ⟨taken ++ f.items, some []⟩)

/-! ## Histories -/

/-- The values put in and taken out so far, those put back not counted, and those that had been
taken out at the mark. -/
structure History (α : Type u) where
  entered : List α
  left : List α
  mark : List α

def History.start : History α := ⟨[], [], []⟩

/-- One more call and its answer. -/
def History.event (h : History α) : Op α × Option α → History α
  | (.init, _) => .start
  | (.enq v, _) => { h with entered := h.entered ++ [v] }
  | (.deq, some v) => { h with left := h.left ++ [v] }
  | (.deq, none) => h
  | (.save, _) => { h with mark := h.left }
  | (.restore, _) => { h with left := h.mark }

def History.events (h : History α) (tr : List (Op α × Option α)) : History α :=
  tr.foldl History.event h

/-- What was put in came out in order or is still there, and what came out after the mark is what
a return to it would put back. -/
structure Explains (h : History α) (f : Fifo α) : Prop where
  entered : h.entered = h.left ++ f.items
  since : ∀ taken, f.since = some taken → h.left = h.mark ++ taken

theorem explains_empty : Explains History.start (Fifo.empty : Fifo α) :=
  ⟨rfl, fun _ hnone => by cases hnone⟩

variable {cap : Nat} {h : History α} {f f' : Fifo α}

theorem Explains.step (hf : Explains h f) {op : Op α} {out : Option α}
    (hstep : f.step cap op = .ok (out, f')) : Explains (h.event (op, out)) f' := by
  cases op with
  | init =>
    cases hstep
    exact explains_empty
  | enq v =>
    simp only [Fifo.step] at hstep
    split at hstep
    · cases hstep
      refine ⟨?_, fun _ hnone => by cases hnone⟩
      show h.entered ++ [v] = h.left ++ (f.items ++ [v])
      rw [hf.entered, List.append_assoc]
    · cases hstep
  | deq =>
    simp only [Fifo.step] at hstep
    split at hstep
    · cases hstep
    · rename_i v rest hitems
      cases hstep
      constructor
      · show h.entered = h.left ++ [v] ++ rest
        rw [hf.entered, hitems, List.append_assoc, List.singleton_append]
      · intro taken htaken
        obtain ⟨before, hbefore, rfl⟩ := Option.map_eq_some_iff.mp htaken
        show h.left ++ [v] = h.mark ++ (before ++ [v])
        rw [hf.since before hbefore, List.append_assoc]
  | save =>
    cases hstep
    refine ⟨hf.entered, fun taken htaken => ?_⟩
    cases htaken
    exact (List.append_nil _).symm
  | restore =>
    simp only [Fifo.step] at hstep
    split at hstep
    · cases hstep
    · rename_i taken htaken
      cases hstep
      constructor
      · show h.entered = h.mark ++ (taken ++ f.items)
        rw [hf.entered, hf.since taken htaken, List.append_assoc]
      · intro taken' htaken'
        cases htaken'
        exact (List.append_nil _).symm

/-- The history of a whole run. -/
theorem Explains.runAll (hf : Explains h f) {ops : List (Op α)} {outs : List (Option α)}
    (hrun : runAll (Fifo.step cap) f ops = .ok (outs, f')) :
    Explains (h.events (ops.zip outs)) f' := by
  induction ops generalizing h f outs with
  | nil =>
    cases hrun
    exact hf
  | cons op ops ih =>
    obtain ⟨out, f₁, rest, hstep, hrest, rfl⟩ := runAll_cons_ok hrun
    exact ih (hf.step hstep) hrest

end RxdOs.Lib.BoundedFifo
