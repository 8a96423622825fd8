/- RxdOs/Lib/CircularList
   digest: Circular doubly linked lists given by their next and prev fields: inserting after
   the head, taking a member out, and what other writes leave alone. -/

import Mathlib.Tactic

set_option autoImplicit false
set_option relaxedAutoImplicit false

namespace RxdOs.Lib.CircularList

universe u

variable {ν : Type u} {next prev next' prev' : ν → ν} {head new e : ν} {xs : List ν}

/-- `b` follows `a`, read in both directions. -/
def Adjacent (next prev : ν → ν) (a b : ν) : Prop := next a = b ∧ prev b = a

/-- From `head` through the members and back; no node occurs twice. -/
structure Circular (next prev : ν → ν) (head : ν) (xs : List ν) : Prop where
  nodup : (head :: xs).Nodup
  chain : List.IsChain (Adjacent next prev) (head :: (xs ++ [head]))

theorem circular_nil : Circular next prev head [] ↔ next head = head ∧ prev head = head := by
  constructor
  · intro h
    exact (List.isChain_pair (R := Adjacent next prev)).mp h.chain
  · intro h
    exact ⟨List.nodup_singleton head, List.isChain_pair.mpr h⟩

theorem mem_around {x : ν} : x ∈ head :: (xs ++ [head]) ↔ x ∈ head :: xs := by
  simp only [List.mem_cons, List.mem_append, List.not_mem_nil, or_false]
  tauto

/-- A circular list stays one when nothing is written to its nodes. -/
theorem Circular.congr (h : Circular next prev head xs)
    (hsame : ∀ x ∈ head :: xs, next' x = next x ∧ prev' x = prev x) :
    Circular next' prev' head xs := by
  refine ⟨h.nodup, h.chain.imp_of_mem_imp ?_⟩
  intro a b ha hb hab
  refine ⟨?_, ?_⟩
  · rw [(hsame a (mem_around.mp ha)).1, hab.1]
  · rw [(hsame b (mem_around.mp hb)).2, hab.2]

/-- A member stands between its prev and its next. -/
theorem Circular.around (h : Circular next prev head xs) (he : e ∈ xs) : ∃ ys zs, xs = ys ++ e :: zs ∧
    List.IsChain (Adjacent next prev) (head :: ys ++ [e]) ∧
    List.IsChain (Adjacent next prev) (e :: (zs ++ [head])) := by
  obtain ⟨ys, zs, rfl⟩ := List.append_of_mem he
  have hchain := h.chain
  rw [List.append_assoc, ← List.cons_append] at hchain
  obtain ⟨hleft, hright⟩ := List.isChain_split.mp hchain
  exact ⟨ys, zs, rfl, hleft, hright⟩

/-- The node before the end of a list. -/
theorem adjacent_concat {a z : ν} {l : List ν}
    (h : List.IsChain (Adjacent next prev) (a :: l ++ [z])) :
    ∃ r, a :: l = r ++ [prev z] ∧ next (prev z) = z := by
  obtain ⟨r, u, hr⟩ := (List.eq_nil_or_concat' (a :: l)).resolve_left (List.cons_ne_nil a l)
  rw [hr, List.append_assoc] at h
  obtain ⟨hn, hp⟩ := List.isChain_pair.mp h.right_of_append
  rw [hp]
  exact ⟨r, hr, hn⟩

/-- The node after the start of a list. -/
theorem adjacent_cons {a z : ν} {l : List ν}
    (h : List.IsChain (Adjacent next prev) (a :: (l ++ [z]))) :
    ∃ r, l ++ [z] = next a :: r ∧ prev (next a) = a := by
  cases l with
  | nil =>
    obtain ⟨hn, hp⟩ := List.isChain_pair.mp h
    rw [hn]
    exact ⟨[], rfl, hp⟩
  | cons b l =>
    obtain ⟨hn, hp⟩ := (List.isChain_cons_cons.mp h).1
    rw [hn]
    exact ⟨l ++ [z], rfl, hp⟩

theorem Circular.next_head (h : Circular next prev head xs) :
    next head ∈ head :: xs ∧ prev (next head) = head := by
  obtain ⟨r, hr, hp⟩ := adjacent_cons h.chain
  refine ⟨mem_around.mp ?_, hp⟩
  rw [hr]
  exact List.mem_cons_of_mem head (List.mem_cons_self ..)

theorem Circular.prev_head (h : Circular next prev head xs) :
    prev head ∈ head :: xs ∧ next (prev head) = head := by
  obtain ⟨r, hr, hn⟩ := adjacent_concat h.chain
  refine ⟨?_, hn⟩
  rw [hr]
  exact List.mem_append_right r (List.mem_singleton_self _)

/-- A head that points to itself has no members. -/
theorem Circular.eq_nil (h : Circular next prev head xs) (hself : next head = head) : xs = [] := by
  obtain ⟨r, hr, -⟩ := adjacent_cons h.chain
  cases xs with
  | nil => rfl
  | cons b xs =>
    obtain ⟨hb, -⟩ := List.cons_eq_cons.mp hr
    rw [hself] at hb
    exact absurd (hb ▸ List.mem_cons_self ..) (List.nodup_cons.mp h.nodup).1

/-- next and prev stay in the list and undo each other. -/
theorem Circular.inverse (h : Circular next prev head xs) {x : ν} (hx : x ∈ head :: xs) :
    (next x ∈ head :: xs ∧ prev (next x) = x) ∧ prev x ∈ head :: xs ∧ next (prev x) = x := by
  rcases List.mem_cons.mp hx with rfl | hmem
  · exact ⟨h.next_head, h.prev_head⟩
  · obtain ⟨ys, zs, rfl, hleft, hright⟩ := h.around hmem
    obtain ⟨l, hl, hn⟩ := adjacent_concat hleft
    obtain ⟨r, hr, hp⟩ := adjacent_cons hright
    have hbefore : prev x ∈ head :: ys := by
      rw [hl]
      exact List.mem_append_right l (List.mem_singleton_self _)
    have hafter : next x ∈ zs ++ [head] := by
      rw [hr]
      exact List.mem_cons_self ..
    refine ⟨⟨?_, hp⟩, ?_, hn⟩
    · simp only [List.mem_append, List.mem_cons] at hafter ⊢
      tauto
    · simp only [List.mem_append, List.mem_cons] at hbefore ⊢
      tauto

/-- Every member can be taken for the head. -/
theorem Circular.rotate {ys zs : List ν} (h : Circular next prev head (ys ++ e :: zs)) :
    Circular next prev e (zs ++ head :: ys) := by
  have hperm : (head :: (ys ++ e :: zs)).Perm (e :: (zs ++ head :: ys)) :=
    @List.perm_append_comm ν (head :: ys) (e :: zs)
  refine ⟨hperm.nodup_iff.mp h.nodup, ?_⟩
  have hchain := h.chain
  rw [List.append_assoc, ← List.cons_append] at hchain
  obtain ⟨hleft, hright⟩ := List.isChain_split.mp hchain
  rw [List.append_assoc, ← List.cons_append]
  exact List.isChain_split.mpr ⟨hright, hleft⟩

variable [DecidableEq ν]

/-- The four writes that put `new` behind `head`. -/
theorem Circular.insert (h : Circular next prev head xs) (hnew : new ∉ head :: xs) :
    Circular (Function.update (Function.update next new (next head)) head new)
      (Function.update (Function.update prev (next head) new) new head) head (new :: xs) := by
  obtain ⟨hnewhead, hnewxs⟩ := List.ne_and_not_mem_of_not_mem_cons hnew
  obtain ⟨hhead, hxs⟩ := List.nodup_cons.mp h.nodup
  have hfirst := h.next_head.1
  have hfirstnew : next head ≠ new := fun heq => hnew (heq ▸ hfirst)
  have hnodup : (head :: new :: xs).Nodup :=
    List.nodup_cons.mpr ⟨List.not_mem_cons_of_ne_of_not_mem (Ne.symm hnewhead) hhead,
      List.nodup_cons.mpr ⟨hnewxs, hxs⟩⟩
  refine ⟨hnodup, ?_⟩
  obtain ⟨r, hr, -⟩ := adjacent_cons h.chain
  have hchain := h.chain
  rw [hr] at hchain
  have hback : (next head :: r).Nodup := by
    rw [← hr]
    exact List.nodup_append_comm.mp h.nodup
  have honce : next head ∉ r := (List.nodup_cons.mp hback).1
  rw [List.cons_append, hr]
  refine List.isChain_cons_cons.mpr ⟨⟨Function.update_self .., Function.update_self ..⟩, ?_⟩
  refine List.isChain_cons_cons.mpr ⟨⟨?_, ?_⟩, ?_⟩
  · rw [Function.update_of_ne hnewhead, Function.update_self]
  · rw [Function.update_of_ne hfirstnew, Function.update_self]
  · refine (List.isChain_cons_cons.mp hchain).2.imp_of_mem_tail_imp ?_
    intro a b ha hb hab
    have hinside : ∀ x ∈ next head :: r, x ∈ head :: xs := by
      intro x hx
      rw [← hr] at hx
      exact mem_around.mp (List.mem_cons_of_mem head hx)
    have hnewa : a ≠ new := fun heq => hnew (heq ▸ hinside a ha)
    have hnewb : b ≠ new := fun heq => hnew (heq ▸ hinside b (List.mem_cons_of_mem _ hb))
    have hbfirst : b ≠ next head := fun heq => honce (heq ▸ hb)
    have hahead : a ≠ head := fun heq => hbfirst (heq ▸ hab.1.symm)
    refine ⟨?_, ?_⟩
    · rw [Function.update_of_ne hahead, Function.update_of_ne hnewa, hab.1]
    · rw [Function.update_of_ne hnewb, Function.update_of_ne hbfirst, hab.2]

/-- The two writes that take `e` out. -/
theorem Circular.remove (h : Circular next prev head xs) (he : e ∈ xs) :
    Circular (Function.update next (prev e) (next e)) (Function.update prev (next e) (prev e)) head
      (xs.erase e) := by
  obtain ⟨ys, zs, rfl, hleft, hright⟩ := h.around he
  have hnodup : (head :: ys ++ e :: zs).Nodup := h.nodup
  obtain ⟨hys, hzs, hdisj⟩ := List.nodup_append'.mp hnodup
  have heleft : e ∉ head :: ys := fun hmem => hdisj hmem (List.mem_cons_self ..)
  have heys : e ∉ ys := fun hmem => heleft (List.mem_cons_of_mem head hmem)
  have heright : e ∉ zs ++ [head] := by
    intro hmem
    rcases List.mem_append.mp hmem with hmem | hmem
    · exact (List.nodup_cons.mp hzs).1 hmem
    · exact heleft (List.mem_singleton.mp hmem ▸ List.mem_cons_self ..)
  obtain ⟨l, hl, hn⟩ := adjacent_concat hleft
  obtain ⟨r, hr, hp⟩ := adjacent_cons hright
  -- what lies between two other neighbours is not written to
  have hkeep : ∀ a b, a ≠ e → b ≠ e → Adjacent next prev a b →
      Adjacent (Function.update next (prev e) (next e)) (Function.update prev (next e) (prev e))
        a b := by
    intro a b ha hb hab
    have ha' : a ≠ prev e := by
      rintro rfl
      exact hb (hab.1.symm.trans hn)
    have hb' : b ≠ next e := by
      rintro rfl
      exact ha (hab.2.symm.trans hp)
    refine ⟨?_, ?_⟩
    · rw [Function.update_of_ne ha', hab.1]
    · rw [Function.update_of_ne hb', hab.2]
  rw [List.erase_append_right _ heys, List.erase_cons_head]
  refine ⟨?_, ?_⟩
  · exact hnodup.sublist (List.Sublist.append_left (List.sublist_cons_self e zs) (head :: ys))
  rw [List.append_assoc, ← List.cons_append, hl, hr, List.append_assoc]
  rw [hl] at hleft heleft
  rw [hr] at hright heright
  refine List.isChain_append_cons_cons.mpr ⟨?_, ⟨Function.update_self .., Function.update_self ..⟩, ?_⟩
  · refine hleft.left_of_append.imp_of_mem_imp fun a b ha hb => hkeep a b ?_ ?_
    · exact fun heq => heleft (heq ▸ ha)
    · exact fun heq => heleft (heq ▸ hb)
  · refine (List.isChain_cons_cons.mp hright).2.imp_of_mem_imp fun a b ha hb => hkeep a b ?_ ?_
    · exact fun heq => heright (heq ▸ ha)
    · exact fun heq => heright (heq ▸ hb)

end RxdOs.Lib.CircularList
