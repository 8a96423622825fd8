/- RxdOs/Lib/PprevList
   digest: Lists that end, in which every node knows the place that points to it: inserting at a
   place, taking a node out, and what other writes leave alone. -/

import Mathlib.Tactic

set_option autoImplicit false
set_option relaxedAutoImplicit false

namespace RxdOs.Lib.PprevList

universe u v

/-- A place that points to a node: a head, or the next field of a node. -/
inductive Slot (η : Type u) (κ : Type v)
  | first (head : η)
  | next (node : κ)
  deriving DecidableEq

/-- The pointers of all heads and nodes. -/
structure Cells (η : Type u) (κ : Type v) where
  first : η → Option κ
  next : κ → Option κ
  pprev : κ → Option (Slot η κ)

variable {η : Type u} {κ : Type v}

def Cells.load (c : Cells η κ) : Slot η κ → Option κ
  | .first head => c.first head
  | .next node => c.next node

/-- The list that starts at a place. -/
def Linked (c : Cells η κ) : Slot η κ → List κ → Prop
  | s, [] => c.load s = none
  | s, x :: xs => c.load s = some x ∧ c.pprev x = some s ∧ Linked c (.next x) xs

/-- The place behind some nodes. -/
def endSlot : Slot η κ → List κ → Slot η κ
  | s, [] => s
  | _, x :: xs => endSlot (.next x) xs

/-- All places of a list. -/
def slots (s : Slot η κ) (xs : List κ) : List (Slot η κ) := s :: xs.map .next

variable {c c' : Cells η κ} {s t : Slot η κ} {xs ys zs : List κ} {x new : κ}

/-! ## Places -/

theorem endSlot_mem (s : Slot η κ) (ys zs : List κ) : endSlot s ys ∈ slots s (ys ++ zs) := by
  induction ys generalizing s with
  | nil => exact List.mem_cons_self ..
  | cons y ys ih => exact List.mem_cons_of_mem s (ih (.next y))

theorem endSlot_concat (s : Slot η κ) (ys : List κ) (x : κ) : endSlot s (ys ++ [x]) = .next x := by
  induction ys generalizing s with
  | nil => rfl
  | cons y ys ih => exact ih (.next y)

theorem next_mem_slots : Slot.next x ∈ slots s xs ↔ s = .next x ∨ x ∈ xs := by
  simp [slots, eq_comm]

theorem slots_first_nodup {head : η} (h : xs.Nodup) : (slots (.first head) xs).Nodup := by
  refine List.nodup_cons.mpr ⟨by simp, h.map fun a b hab => ?_⟩
  cases hab
  rfl

/-- Nodes after a place are other nodes than the one it belongs to. -/
theorem nodup_of_slots (h : (slots s xs).Nodup) : xs.Nodup :=
  List.Nodup.of_map _ (List.nodup_cons.mp h).2

/-! ## Lists -/

theorem Linked.tail (h : Linked c s (ys ++ zs)) : Linked c (endSlot s ys) zs := by
  induction ys generalizing s with
  | nil => exact h
  | cons y ys ih => exact ih h.2.2

/-- A place points to the node behind it. -/
theorem Linked.load_eq (h : Linked c s xs) : c.load s = xs.head? := by
  cases xs with
  | nil => exact h
  | cons x xs => exact h.1

theorem Linked.load_endSlot (h : Linked c s (ys ++ zs)) : c.load (endSlot s ys) = zs.head? :=
  h.tail.load_eq

theorem Linked.pprev_eq (h : Linked c s (ys ++ x :: zs)) : c.pprev x = some (endSlot s ys) :=
  h.tail.2.1

/-- The place a node knows points to it. -/
theorem Linked.pprev_load (h : Linked c s xs) (hx : x ∈ xs) :
    ∃ t ∈ slots s xs, c.pprev x = some t ∧ c.load t = some x := by
  obtain ⟨ys, zs, rfl⟩ := List.append_of_mem hx
  exact ⟨endSlot s ys, endSlot_mem s ys _, h.pprev_eq, h.load_endSlot⟩

/-- A list stays one when nothing is written to its places and nodes. -/
theorem Linked.congr (h : Linked c s xs) (hload : ∀ t ∈ slots s xs, c'.load t = c.load t)
    (hpprev : ∀ x ∈ xs, c'.pprev x = c.pprev x) : Linked c' s xs := by
  induction xs generalizing s with
  | nil => exact (hload s (List.mem_cons_self ..)).trans h
  | cons x xs ih =>
    obtain ⟨hs, hx, hrest⟩ := h
    refine ⟨(hload s (List.mem_cons_self ..)).trans hs, (hpprev x (List.mem_cons_self ..)).trans hx,
      ih hrest (fun t ht => ?_) fun y hy => hpprev y (List.mem_cons_of_mem x hy)⟩
    exact hload t (List.mem_cons_of_mem s ht)

/-! ## Writes -/

section Writes

variable [DecidableEq η] [DecidableEq κ]

def Cells.store (c : Cells η κ) (s : Slot η κ) (p : Option κ) : Cells η κ :=
  match s with
  | .first head => { c with first := Function.update c.first head p }
  | .next node => { c with next := Function.update c.next node p }

def Cells.setPprev (c : Cells η κ) (node : κ) (s : Option (Slot η κ)) : Cells η κ :=
  { c with pprev := Function.update c.pprev node s }

theorem load_store (c : Cells η κ) (s t : Slot η κ) (p : Option κ) :
    (c.store s p).load t = if t = s then p else c.load t := by
  cases s <;> cases t <;> simp [Cells.store, Cells.load, Function.update_apply]

@[simp] theorem pprev_store (c : Cells η κ) (s : Slot η κ) (p : Option κ) :
    (c.store s p).pprev = c.pprev := by
  cases s <;> rfl

omit [DecidableEq η] in
@[simp] theorem load_setPprev (c : Cells η κ) (node : κ) (s : Option (Slot η κ)) (t : Slot η κ) :
    (c.setPprev node s).load t = c.load t := by
  cases t <;> rfl

omit [DecidableEq η] in
theorem pprev_setPprev (c : Cells η κ) (node : κ) (s : Option (Slot η κ)) (x : κ) :
    (c.setPprev node s).pprev x = if x = node then s else c.pprev x :=
  Function.update_apply ..

/-- `new` comes between a place and what it points to. -/
def Cells.insert (c : Cells η κ) (s : Slot η κ) (new : κ) : Cells η κ :=
  let next := c.load s
  let c := (c.setPprev new (some s)).store (.next new) next
  let c := match next with
    | none => c
    | some n => c.setPprev n (some (.next new))
  c.store s (some new)

/-- What comes after `x` moves up to the place `s`. -/
def Cells.remove (c : Cells η κ) (x : κ) (s : Slot η κ) : Cells η κ :=
  let next := c.next x
  let c := c.store s next
  match next with
  | none => c
  | some n => c.setPprev n (some s)

theorem insert_load (c : Cells η κ) (s : Slot η κ) (new : κ) (t : Slot η κ) :
    (c.insert s new).load t =
      if t = s then some new else if t = .next new then c.load s else c.load t := by
  unfold Cells.insert
  cases c.load s <;> simp only [load_store, load_setPprev]

theorem insert_pprev (c : Cells η κ) (s : Slot η κ) (new x : κ) :
    (c.insert s new).pprev x = if c.load s = some x then some (.next new)
      else if x = new then some s else c.pprev x := by
  unfold Cells.insert
  cases c.load s with
  | none => simp [pprev_setPprev]
  | some n => simp [pprev_setPprev, eq_comm]

theorem remove_load (c : Cells η κ) (x : κ) (s t : Slot η κ) :
    (c.remove x s).load t = if t = s then c.next x else c.load t := by
  unfold Cells.remove
  cases c.next x <;> simp only [load_store, load_setPprev]

theorem remove_pprev (c : Cells η κ) (x y : κ) (s : Slot η κ) :
    (c.remove x s).pprev y = if c.next x = some y then some s else c.pprev y := by
  unfold Cells.remove
  cases c.next x with
  | none => simp
  | some n => simp [pprev_setPprev, eq_comm]

/-- At its first place a list takes a node in: what is behind is not written to, the pprev of the
node that follows apart. -/
theorem Linked.insert_head (h : Linked c s zs) (hnew : new ∉ zs) (hs : s ≠ .next new)
    (hnodup : (slots s zs).Nodup) : Linked (c.insert s new) s (new :: zs) := by
  obtain ⟨hbehind, -⟩ := List.nodup_cons.mp hnodup
  have hends : c.load s = zs.head? := h.load_eq
  refine ⟨?_, ?_, ?_⟩
  · rw [insert_load, if_pos rfl]
  · have hother : c.load s ≠ some new := by
      intro heq
      rw [hends] at heq
      exact hnew (List.mem_of_mem_head? heq)
    rw [insert_pprev, if_neg hother, if_pos rfl]
  · have hnewslot : (c.insert s new).load (.next new) = c.load s := by
      rw [insert_load, if_neg (Ne.symm hs), if_pos rfl]
    cases zs with
    | nil => exact hnewslot.trans h
    | cons z zs =>
      obtain ⟨hz, -, hrest⟩ := h
      have hzs := nodup_of_slots hnodup
      refine ⟨hnewslot.trans hz, ?_, hrest.congr (fun t ht => ?_) fun x hx => ?_⟩
      · rw [insert_pprev, if_pos hz]
      · have hts : t ≠ s := fun heq => hbehind (heq ▸ ht)
        have htnew : t ≠ .next new := by
          rintro rfl
          rcases next_mem_slots.mp ht with heq | hmem
          · cases heq
            exact hnew (List.mem_cons_self ..)
          · exact hnew (List.mem_cons_of_mem _ hmem)
        rw [insert_load, if_neg hts, if_neg htnew]
      · have hxz : c.load s ≠ some x := by
          rw [hz]
          rintro heq
          cases heq
          exact (List.nodup_cons.mp hzs).1 hx
        have hxnew : x ≠ new := fun heq => hnew (List.mem_cons_of_mem _ (heq ▸ hx))
        rw [insert_pprev, if_neg hxz, if_neg hxnew]

/-- A list takes a node in at one of its places. -/
theorem Linked.insert (h : Linked c s (ys ++ zs)) (hnew : new ∉ ys ++ zs) (hs : s ≠ .next new)
    (hnodup : (slots s (ys ++ zs)).Nodup) :
    Linked (c.insert (endSlot s ys) new) s (ys ++ new :: zs) := by
  have hload := h.load_endSlot
  induction ys generalizing s with
  | nil => exact h.insert_head hnew hs hnodup
  | cons y ys ih =>
    obtain ⟨hsy, hy, hrest⟩ := h
    obtain ⟨hbehind, hnodup'⟩ := List.nodup_cons.mp hnodup
    have hnew' : new ∉ ys ++ zs := fun hmem => hnew (List.mem_cons_of_mem y hmem)
    have hynew : y ≠ new := fun heq => hnew (heq ▸ List.mem_cons_self ..)
    have hyslot : (Slot.next y : Slot η κ) ≠ .next new := fun heq => hynew (Slot.next.inj heq)
    have hyzs : y ∉ zs := fun hmem =>
      (List.nodup_cons.mp (nodup_of_slots hnodup)).1 (List.mem_append_right ys hmem)
    have hend : s ≠ endSlot (.next y) ys := fun heq => hbehind (heq ▸ endSlot_mem ..)
    refine ⟨?_, ?_, ih hrest hnew' hyslot hnodup' hload⟩
    · rw [endSlot, insert_load, if_neg hend, if_neg hs, hsy]
    · have hload' : c.load (endSlot (.next y) ys) ≠ some y := by
        intro heq
        rw [show endSlot (.next y) ys = endSlot s (y :: ys) from rfl, hload] at heq
        exact hyzs (List.mem_of_mem_head? heq)
      rw [endSlot, insert_pprev, if_neg hload', if_neg hynew, hy]

/-- The node at the first place of a list goes. -/
theorem Linked.remove_head (h : Linked c s (x :: zs)) (hnodup : (slots s (x :: zs)).Nodup) :
    Linked (c.remove x s) s zs := by
  have hnext : c.next x = zs.head? := h.2.2.load_eq
  obtain ⟨hbehind, hnodup'⟩ := List.nodup_cons.mp hnodup
  have hplace : (c.remove x s).load s = c.next x := by rw [remove_load, if_pos rfl]
  cases zs with
  | nil => exact hplace.trans hnext
  | cons z zs =>
    obtain ⟨-, -, -, -, hrest⟩ := h
    have hz : c.next x = some z := hnext
    refine ⟨hplace.trans hz, ?_, hrest.congr (fun t ht => ?_) fun y hy => ?_⟩
    · rw [remove_pprev, if_pos hz]
    · have hts : t ≠ s := fun heq => hbehind (heq ▸ List.mem_cons_of_mem _ ht)
      rw [remove_load, if_neg hts]
    · have hyz : c.next x ≠ some y := by
        rw [hz]
        rintro heq
        cases heq
        exact (List.nodup_cons.mp (List.nodup_cons.mp (nodup_of_slots hnodup)).2).1 hy
      rw [remove_pprev, if_neg hyz]

/-- A list lets one of its nodes go. -/
theorem Linked.remove (h : Linked c s (ys ++ x :: zs)) (hnodup : (slots s (ys ++ x :: zs)).Nodup) :
    Linked (c.remove x (endSlot s ys)) s (ys ++ zs) := by
  have hnext : c.next x = zs.head? := h.tail.2.2.load_eq
  induction ys generalizing s with
  | nil => exact h.remove_head hnodup
  | cons y ys ih =>
    obtain ⟨hsy, hy, hrest⟩ := h
    obtain ⟨hbehind, hnodup'⟩ := List.nodup_cons.mp hnodup
    have hyzs : y ∉ zs := fun hmem => (List.nodup_cons.mp (nodup_of_slots hnodup)).1
      (List.mem_append_right ys (List.mem_cons_of_mem x hmem))
    have hend : s ≠ endSlot (.next y) ys := fun heq => hbehind (heq ▸ endSlot_mem ..)
    refine ⟨?_, ?_, ih hrest hnodup'⟩
    · rw [endSlot, remove_load, if_neg hend, hsy]
    · have hnext' : c.next x ≠ some y := by
        intro heq
        rw [hnext] at heq
        exact hyzs (List.mem_of_mem_head? heq)
      rw [endSlot, remove_pprev, if_neg hnext', hy]

end Writes

end RxdOs.Lib.PprevList
