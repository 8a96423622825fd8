/- RxdOs/Base/HlistHead
   source: include/list.h
   digest: The lists of a hash table: the pointers of all `struct hlist_head`s and
   `struct hlist_node`s, adding at three places and deleting. -/

import RxdOs.Base.Assert
import RxdOs.Lib.PprevList

set_option autoImplicit false
set_option relaxedAutoImplicit false

namespace RxdOs.Base.HlistHead

open RxdOs.Base.Assert RxdOs.Lib.PprevList

variable {η κ : Type}

/-- INIT_HLIST_HEAD -/
def initHlistHead [DecidableEq η] (c : Cells η κ) (ptr : η) : Cells η κ :=
  { c with first := Function.update c.first ptr none }

def hlistEmpty (c : Cells η κ) (head : η) : Prop := c.first head = none

/-- The nodes hlist_for_each visits from `pos` on. -/
def hlistForEach (c : Cells η κ) : Nat → Option κ → Option (List κ)
  | 0, _ => none
  | _ + 1, none => some []
  | fuel + 1, some pos => (hlistForEach c fuel (c.next pos)).map (pos :: ·)

section Operations

variable [DecidableEq η] [DecidableEq κ]

/-- `*pprev = p`, which is no access for a NULL pointer. -/
def storeAt (c : Cells η κ) (pprev : Option (Slot η κ)) (p : Option κ) : Kernel (Cells η κ) :=
  match pprev with
  | none => .error (.fault "*pprev")
  | some s => .ok (c.store s p)

/-- `if (next) next->pprev = pprev;` -/
def linkBack (c : Cells η κ) (next : Option κ) (pprev : Option (Slot η κ)) : Cells η κ :=
  match next with
  | none => c
  | some n => c.setPprev n pprev

def hlistDel (c : Cells η κ) (node : κ) : Kernel (Cells η κ) := do
  let next := c.next node
  let pprev := c.pprev node
  let c ← storeAt c pprev next
  pure (linkBack c next pprev)

def hlistAddHead (c : Cells η κ) (new : κ) (head : η) : Cells η κ :=
  let first := c.first head
  let c := c.setPprev new (some (.first head))
  let c := c.store (.next new) first
  let c := linkBack c first (some (.next new))
  c.store (.first head) (some new)

def hlistAddBefore (c : Cells η κ) (new node : κ) : Kernel (Cells η κ) :=
  let c := c.setPprev new (c.pprev node)
  let c := c.store (.next new) (some node)
  let c := c.setPprev node (some (.next new))
  storeAt c (c.pprev new) (some new)

def hlistAddAfter (c : Cells η κ) (new node : κ) : Cells η κ :=
  let next := c.next node
  let c := c.setPprev new (some (.next node))
  let c := c.store (.next new) next
  let c := linkBack c next (some (.next new))
  c.store (.next node) (some new)

end Operations

/-! ## Lists -/

/-- The list of `head` has the nodes `xs`. -/
structure IsHlist (c : Cells η κ) (head : η) (xs : List κ) : Prop where
  nodup : xs.Nodup
  linked : Linked c (.first head) xs

/-- The sequences that hlist_add_before and hlist_add_after make. -/
def insertBefore [DecidableEq κ] (new node : κ) : List κ → List κ
  | [] => []
  | x :: xs => if x = node then new :: x :: xs else x :: insertBefore new node xs

def insertAfter [DecidableEq κ] (new node : κ) : List κ → List κ
  | [] => []
  | x :: xs => if x = node then x :: new :: xs else x :: insertAfter new node xs

variable {c c' : Cells η κ} {head : η} {xs ys zs : List κ} {node new x : κ}

theorem IsHlist.slots_nodup (h : IsHlist c head xs) : (slots (.first head) xs).Nodup :=
  slots_first_nodup h.nodup

theorem IsHlist.empty_iff (h : IsHlist c head xs) : hlistEmpty c head ↔ xs = [] := by
  have hfirst : c.first head = xs.head? := h.linked.load_eq
  rw [hlistEmpty, hfirst, List.head?_eq_none_iff]

theorem hlistForEach_linked {s : Slot η κ} {fuel : Nat} (h : Linked c s xs)
    (hfuel : xs.length < fuel) : hlistForEach c fuel (c.load s) = some xs := by
  induction xs generalizing s fuel with
  | nil =>
    obtain ⟨fuel, rfl⟩ := Nat.exists_eq_succ_of_ne_zero (Nat.ne_of_gt hfuel)
    rw [show c.load s = none from h]
    rfl
  | cons x xs ih =>
    obtain ⟨fuel, rfl⟩ := Nat.exists_eq_succ_of_ne_zero (Nat.ne_of_gt (Nat.zero_lt_of_lt hfuel))
    obtain ⟨hx, -, hrest⟩ := h
    have htail : hlistForEach c fuel (c.next x) = some xs :=
      ih hrest (Nat.lt_of_succ_lt_succ hfuel)
    rw [hx, hlistForEach, htail]
    rfl

/-- The traversal gives the nodes in their order. -/
theorem IsHlist.forEach (h : IsHlist c head xs) {fuel : Nat} (hfuel : xs.length < fuel) :
    hlistForEach c fuel (c.first head) = some xs :=
  hlistForEach_linked h.linked hfuel

/-- `*pprev` is the node. -/
theorem IsHlist.pprev (h : IsHlist c head xs) (hx : x ∈ xs) :
    ∃ s, c.pprev x = some s ∧ c.load s = some x := by
  obtain ⟨s, -, hs⟩ := h.linked.pprev_load hx
  exact ⟨s, hs⟩

/-- What a list of other nodes sees of a write. -/
def Untouched (c c' : Cells η κ) (head : η) (xs : List κ) : Prop :=
  c'.first head = c.first head ∧ ∀ x ∈ xs, c'.next x = c.next x ∧ c'.pprev x = c.pprev x

theorem IsHlist.congr (h : IsHlist c head xs) (hsame : Untouched c c' head xs) :
    IsHlist c' head xs := by
  refine ⟨h.nodup, h.linked.congr (fun s hs => ?_) fun x hx => (hsame.2 x hx).2⟩
  cases s with
  | first j =>
    have hj : j = head := by
      simpa [slots] using hs
    exact hj ▸ hsame.1
  | next x =>
    have hx : x ∈ xs := by
      simpa [slots] using hs
    exact (hsame.2 x hx).1

/-! ## Operations -/

/-- No place of another list is where a list is written to. -/
theorem first_ne_endSlot {j : η} (hj : j ≠ head) (ys : List κ) :
    Slot.first j ≠ endSlot (.first head) ys := by
  intro heq
  have hmem := endSlot_mem (Slot.first head) ys []
  rw [← heq, slots, List.mem_cons, Slot.first.injEq] at hmem
  exact hmem.elim hj (by simp)

theorem next_ne_endSlot (hx : x ∉ ys ++ zs) : Slot.next x ≠ endSlot (.first head) ys := by
  intro heq
  have hmem := endSlot_mem (Slot.first head) ys zs
  rw [← heq, next_mem_slots] at hmem
  exact hmem.elim (by simp) hx

section Writes

variable [DecidableEq η] [DecidableEq κ] {s : Slot η κ}

/-- All three ways of adding insert at one place. -/
theorem hlistAddHead_eq (c : Cells η κ) (new : κ) (head : η) :
    hlistAddHead c new head = c.insert (.first head) new := rfl

theorem hlistAddAfter_eq (c : Cells η κ) (new node : κ) :
    hlistAddAfter c new node = c.insert (.next node) new := rfl

theorem hlistAddBefore_eq (hpprev : c.pprev node = some s) (hload : c.load s = some node)
    (hne : new ≠ node) : hlistAddBefore c new node = .ok (c.insert s new) := by
  have hnew : (((c.setPprev new (some s)).store (.next new) (some node)).setPprev node
      (some (.next new))).pprev new = some s := by
    rw [pprev_setPprev, if_neg hne, pprev_store, pprev_setPprev, if_pos rfl]
  unfold hlistAddBefore Cells.insert
  simp only [hpprev, hload, hnew]
  rfl

theorem hlistDel_eq (hpprev : c.pprev node = some s) :
    hlistDel c node = .ok (c.remove node s) := by
  unfold hlistDel
  rw [hpprev]
  rfl

theorem IsHlist.insert (h : IsHlist c head (ys ++ zs)) (hnew : new ∉ ys ++ zs) :
    IsHlist (c.insert (endSlot (.first head) ys) new) head (ys ++ new :: zs) := by
  refine ⟨?_, h.linked.insert hnew (by simp) h.slots_nodup⟩
  exact (List.perm_middle.nodup_iff).mpr (List.nodup_cons.mpr ⟨hnew, h.nodup⟩)

theorem IsHlist.remove (h : IsHlist c head (ys ++ node :: zs)) :
    IsHlist (c.remove node (endSlot (.first head) ys)) head (ys ++ zs) := by
  refine ⟨?_, h.linked.remove h.slots_nodup⟩
  exact (List.nodup_cons.mp (List.perm_middle.nodup_iff.mp h.nodup)).2

/-- An insertion into one list, seen by another. -/
theorem insert_untouched {j : η} {ws : List κ} (h : IsHlist c head (ys ++ zs)) (hj : j ≠ head)
    (hws : ∀ x ∈ ws, x ∉ ys ++ zs) (hnew : new ∉ ws) :
    Untouched c (c.insert (endSlot (.first head) ys) new) j ws := by
  have hload := h.linked.load_endSlot
  refine ⟨?_, fun x hx => ⟨?_, ?_⟩⟩
  · show (c.insert _ new).load (.first j) = c.load (.first j)
    rw [insert_load, if_neg (first_ne_endSlot hj ys), if_neg (by simp)]
  · have hxnew : (Slot.next x : Slot η κ) ≠ .next new := fun heq => hnew (Slot.next.inj heq ▸ hx)
    show (c.insert _ new).load (.next x) = c.load (.next x)
    rw [insert_load, if_neg (next_ne_endSlot (hws x hx)), if_neg hxnew]
  · have hnext : c.load (endSlot (.first head) ys) ≠ some x := by
      intro heq
      rw [hload] at heq
      exact hws x hx (List.mem_append_right ys (List.mem_of_mem_head? heq))
    have hxnew : x ≠ new := fun heq => hnew (heq ▸ hx)
    rw [insert_pprev, if_neg hnext, if_neg hxnew]

theorem remove_untouched {j : η} {ws : List κ} (h : IsHlist c head (ys ++ node :: zs))
    (hj : j ≠ head) (hws : ∀ x ∈ ws, x ∉ ys ++ node :: zs) :
    Untouched c (c.remove node (endSlot (.first head) ys)) j ws := by
  have hnext : c.next node = zs.head? := h.linked.tail.2.2.load_eq
  refine ⟨?_, fun x hx => ⟨?_, ?_⟩⟩
  · show (c.remove node _).load (.first j) = c.load (.first j)
    rw [remove_load, if_neg (first_ne_endSlot hj ys)]
  · show (c.remove node _).load (.next x) = c.load (.next x)
    rw [remove_load, if_neg (next_ne_endSlot (hws x hx))]
  · have hother : c.next node ≠ some x := by
      intro heq
      rw [hnext] at heq
      exact hws x hx (List.mem_append_right ys (List.mem_cons_of_mem _ (List.mem_of_mem_head? heq)))
    rw [remove_pprev, if_neg hother]

end Writes

/-! ## Sequences -/

section Sequences

variable [DecidableEq κ]

theorem insertBefore_append (hys : node ∉ ys) :
    insertBefore new node (ys ++ node :: zs) = ys ++ new :: node :: zs := by
  induction ys with
  | nil => exact if_pos rfl
  | cons y ys ih =>
    obtain ⟨hy, hrest⟩ := List.ne_and_not_mem_of_not_mem_cons hys
    rw [List.cons_append, insertBefore, if_neg (Ne.symm hy), ih hrest]
    rfl

theorem insertAfter_append (hys : node ∉ ys) :
    insertAfter new node (ys ++ node :: zs) = ys ++ node :: new :: zs := by
  induction ys with
  | nil => exact if_pos rfl
  | cons y ys ih =>
    obtain ⟨hy, hrest⟩ := List.ne_and_not_mem_of_not_mem_cons hys
    rw [List.cons_append, insertAfter, if_neg (Ne.symm hy), ih hrest]
    rfl

theorem insertBefore_of_not_mem (h : node ∉ xs) : insertBefore new node xs = xs := by
  induction xs with
  | nil => rfl
  | cons x xs ih =>
    obtain ⟨hx, hrest⟩ := List.ne_and_not_mem_of_not_mem_cons h
    rw [insertBefore, if_neg (Ne.symm hx), ih hrest]

theorem insertAfter_of_not_mem (h : node ∉ xs) : insertAfter new node xs = xs := by
  induction xs with
  | nil => rfl
  | cons x xs ih =>
    obtain ⟨hx, hrest⟩ := List.ne_and_not_mem_of_not_mem_cons h
    rw [insertAfter, if_neg (Ne.symm hx), ih hrest]

end Sequences

end RxdOs.Base.HlistHead
