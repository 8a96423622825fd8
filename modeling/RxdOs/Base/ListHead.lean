/- RxdOs/Base/ListHead
   source: include/list.h
   digest: Intrusive circular lists: the links of all `struct list_head`s, adding and deleting. -/

import RxdOs.Lib.CircularList

set_option autoImplicit false
set_option relaxedAutoImplicit false

namespace RxdOs.Base.ListHead

open RxdOs.Lib.CircularList

universe u

/-- What the next and prev fields of every node hold. -/
structure Links (ν : Type u) where
  next : ν → ν
  prev : ν → ν

variable {ν : Type u} [DecidableEq ν]

def Links.setNext (l : Links ν) (ptr val : ν) : Links ν :=
  { l with next := Function.update l.next ptr val }

def Links.setPrev (l : Links ν) (ptr val : ν) : Links ν :=
  { l with prev := Function.update l.prev ptr val }

/-- INIT_LIST_HEAD -/
def initListHead (l : Links ν) (ptr : ν) : Links ν := (l.setNext ptr ptr).setPrev ptr ptr

/-- __list_add -/
def listAddBetween (l : Links ν) (new prev next : ν) : Links ν :=
  (((l.setPrev next new).setNext new next).setPrev new prev).setNext prev new

def listAdd (l : Links ν) (new head : ν) : Links ν := listAddBetween l new head (l.next head)

def listAddTail (l : Links ν) (new head : ν) : Links ν := listAddBetween l new (l.prev head) head

/-- __list_del -/
def listDelBetween (l : Links ν) (prev next : ν) : Links ν :=
  (l.setPrev next prev).setNext prev next

def listDel (l : Links ν) (entry : ν) : Links ν := listDelBetween l (l.prev entry) (l.next entry)

def listEmpty (l : Links ν) (head : ν) : Prop := l.next head = head

instance (l : Links ν) (head : ν) : Decidable (listEmpty l head) :=
  inferInstanceAs (Decidable (_ = _))

/-- The members list_for_each visits from `pos` on. -/
def listForEach (l : Links ν) (head : ν) : Nat → ν → Option (List ν)
  | 0, _ => none
  | fuel + 1, pos =>
    if pos = head then some [] else (listForEach l head fuel (l.next pos)).map (pos :: ·)

/-! ## Circular lists -/

section Lists

variable {l l' : Links ν} {head new e x : ν} {xs : List ν}

/-- The list of `head` has the members `xs`. -/
abbrev IsList (l : Links ν) (head : ν) (xs : List ν) : Prop := Circular l.next l.prev head xs

/-- A node points to itself both ways, as INIT_LIST_HEAD leaves it. -/
def SelfLinked (l : Links ν) (head : ν) : Prop := l.next head = head ∧ l.prev head = head

instance (l : Links ν) (head : ν) : Decidable (SelfLinked l head) :=
  inferInstanceAs (Decidable (_ ∧ _))

/-- The nodes list_add writes to, in its order. -/
def addWrites (l : Links ν) (new head : ν) : List ν := [l.next head, new, new, head]

def Untouched (l l' : Links ν) (x : ν) : Prop := l'.next x = l.next x ∧ l'.prev x = l.prev x

omit [DecidableEq ν] in
theorem isList_nil : IsList l head [] ↔ SelfLinked l head := circular_nil

theorem selfLinked_initListHead (l : Links ν) (head : ν) :
    SelfLinked (initListHead l head) head := by
  constructor
  · exact Function.update_self ..
  · exact Function.update_self ..

theorem initListHead_untouched (h : x ≠ head) : Untouched l (initListHead l head) x := by
  constructor
  · exact Function.update_of_ne h ..
  · exact Function.update_of_ne h ..

theorem IsList.add (h : IsList l head xs) (hnew : new ∉ head :: xs) :
    IsList (listAdd l new head) head (new :: xs) := h.insert hnew

theorem IsList.del (h : IsList l head xs) (he : e ∈ xs) :
    IsList (listDel l e) head (xs.erase e) := h.remove he

/-- list_add does not look at the prev of an empty head. -/
theorem isList_add_empty (h : listEmpty l head) (hne : new ≠ head) :
    IsList (listAdd l new head) head [new] := by
  refine ⟨?_, ?_⟩
  · exact List.nodup_cons.mpr ⟨fun hmem => hne (List.mem_singleton.mp hmem).symm,
      List.nodup_singleton new⟩
  · have hnext : l.next head = head := h
    refine List.isChain_cons_cons.mpr ⟨⟨Function.update_self .., Function.update_self ..⟩,
      List.isChain_pair.mpr ⟨?_, ?_⟩⟩
    · show Function.update (Function.update l.next new (l.next head)) head new new = head
      rw [Function.update_of_ne hne, Function.update_self, hnext]
    · show Function.update (Function.update l.prev (l.next head) new) new head head = new
      rw [Function.update_of_ne (Ne.symm hne), hnext, Function.update_self]

theorem listAdd_next_new (hne : new ≠ head) : (listAdd l new head).next new = l.next head := by
  show Function.update (Function.update l.next new (l.next head)) head new new = l.next head
  rw [Function.update_of_ne hne, Function.update_self]

theorem listAdd_prev_new : (listAdd l new head).prev new = head := Function.update_self ..

theorem listAdd_untouched (h : x ∉ addWrites l new head) : Untouched l (listAdd l new head) x := by
  simp only [addWrites, List.mem_cons, List.not_mem_nil, or_false, not_or] at h
  obtain ⟨hfirst, hnew, -, hhead⟩ := h
  constructor
  · show Function.update (Function.update l.next new (l.next head)) head new x = l.next x
    rw [Function.update_of_ne hhead, Function.update_of_ne hnew]
  · show Function.update (Function.update l.prev (l.next head) new) new head x = l.prev x
    rw [Function.update_of_ne hnew, Function.update_of_ne hfirst]

theorem listDel_untouched (hprev : x ≠ l.prev e) (hnext : x ≠ l.next e) :
    Untouched l (listDel l e) x := by
  constructor
  · exact Function.update_of_ne hprev ..
  · exact Function.update_of_ne hnext ..

/-- list_add_tail adds behind the last node. -/
theorem listAddTail_eq (h : IsList l head xs) (new : ν) :
    listAddTail l new head = listAdd l new (l.prev head) := by
  rw [listAddTail, listAdd, h.prev_head.2]

theorem IsList.addTail (h : IsList l head xs) (hnew : new ∉ head :: xs) :
    IsList (listAddTail l new head) head (xs ++ [new]) := by
  rw [listAddTail_eq h]
  obtain rfl | ⟨ys, z, rfl⟩ := List.eq_nil_or_concat' xs
  · rw [(isList_nil.mp h).2]
    exact h.add hnew
  · -- seen from the last node, the new one is the first
    have hrotated : IsList l z (head :: ys) := h.rotate
    have hlast : l.prev head = z := by
      have hchain := h.chain
      rw [List.append_assoc, ← List.cons_append] at hchain
      exact (List.isChain_pair.mp hchain.right_of_append).2
    have hnew' : new ∉ z :: head :: ys := by
      simp only [List.mem_cons, List.mem_append, List.not_mem_nil, or_false] at hnew ⊢
      tauto
    have hadded : IsList (listAdd l new z) z ([new] ++ head :: ys) := hrotated.add hnew'
    rw [hlast, List.append_assoc]
    exact hadded.rotate

/-- A write of list_add or list_add_tail is to the list or to the new node. -/
theorem listAdd_outside (h : IsList l head xs) (hprev : e ∈ head :: xs) (hx : x ∉ head :: xs)
    (hne : x ≠ new) : Untouched l (listAdd l new e) x := by
  refine listAdd_untouched ?_
  have hnext : l.next e ∈ head :: xs := (h.inverse hprev).1.1
  simp only [addWrites, List.mem_cons, List.not_mem_nil, or_false, not_or]
  exact ⟨fun heq => hx (heq ▸ hnext), hne, hne, fun heq => hx (heq ▸ hprev)⟩

theorem listDel_outside (h : IsList l head xs) (he : e ∈ xs) (hx : x ∉ head :: xs) :
    Untouched l (listDel l e) x := by
  obtain ⟨⟨hnext, -⟩, hprev, -⟩ := h.inverse (List.mem_cons_of_mem head he)
  exact listDel_untouched (fun heq => hx (heq ▸ hprev)) fun heq => hx (heq ▸ hnext)

omit [DecidableEq ν] in
/-- list_empty is true of the empty list only. -/
theorem IsList.empty_iff (h : IsList l head xs) : listEmpty l head ↔ xs = [] := by
  refine ⟨fun hself => h.eq_nil hself, fun hnil => ?_⟩
  subst hnil
  exact (isList_nil.mp h).1

theorem listForEach_chain {p : ν} {fuel : Nat}
    (h : List.IsChain (Adjacent l.next l.prev) (p :: (xs ++ [head]))) (hhead : head ∉ xs)
    (hfuel : xs.length < fuel) : listForEach l head fuel (l.next p) = some xs := by
  induction xs generalizing p fuel with
  | nil =>
    obtain ⟨fuel, rfl⟩ := Nat.exists_eq_succ_of_ne_zero (Nat.ne_of_gt hfuel)
    exact if_pos (List.isChain_pair.mp h).1
  | cons x xs ih =>
    obtain ⟨fuel, rfl⟩ := Nat.exists_eq_succ_of_ne_zero (Nat.ne_of_gt (Nat.zero_lt_of_lt hfuel))
    obtain ⟨hadj, hrest⟩ := List.isChain_cons_cons.mp h
    obtain ⟨hxhead, hxs⟩ := List.ne_and_not_mem_of_not_mem_cons hhead
    rw [hadj.1, listForEach, if_neg (Ne.symm hxhead), ih hrest hxs (Nat.lt_of_succ_lt_succ hfuel)]
    rfl

/-- The traversal gives the members in their order. -/
theorem IsList.forEach (h : IsList l head xs) {fuel : Nat} (hfuel : xs.length < fuel) :
    listForEach l head fuel (l.next head) = some xs :=
  listForEach_chain h.chain (List.nodup_cons.mp h.nodup).1 hfuel

omit [DecidableEq ν] in
theorem IsList.congr (h : IsList l head xs) (hsame : ∀ x ∈ head :: xs, Untouched l l' x) :
    IsList l' head xs := Circular.congr h hsame

end Lists

end RxdOs.Base.ListHead
