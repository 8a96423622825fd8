/- RxdOs/Base/ListRuns
   source: include/list.h
   digest: Circular lists and hash lists of one heap over every sequence of additions and
   deletions: each list is the sequence it should be, read in both directions. -/

import RxdOs.Base.HlistHead
import RxdOs.Base.ListHead
import RxdOs.Lib.DisjointLists

set_option autoImplicit false
set_option relaxedAutoImplicit false

namespace RxdOs.Base.ListRuns

open RxdOs.Base.Assert RxdOs.Base.ListHead RxdOs.Base.HlistHead RxdOs.Lib.PprevList
  RxdOs.Lib.DisjointLists

variable {ν η κ : Type}

/-- The `struct list_head`s and the two structs of hash lists. -/
structure Heap (ν η κ : Type) where
  links : Links ν
  cells : Cells η κ

/-- Which heads there are, and the members of their lists. -/
structure Lists (ν η κ : Type) where
  lists : ν → Option (List ν)
  hlists : η → Option (List κ)

inductive Op (ν η κ : Type)
  | listAdd (new head : ν)
  | listAddTail (new head : ν)
  | listDel (entry : ν)
  | hlistAddHead (new : κ) (head : η)
  | hlistAddBefore (new node : κ)
  | hlistAddAfter (new node : κ)
  | hlistDel (node : κ)

/-- A circular list occupies its head as well. -/
def circular : Layout (Links ν) ν ν where
  IsRep := IsList
  owned head xs := head :: xs
  Same l l' head xs := ∀ x ∈ head :: xs, ListHead.Untouched l l' x
  congr h hsame := h.congr hsame

def hashed : Layout (Cells η κ) η κ where
  IsRep := IsHlist
  owned _ xs := xs
  Same := HlistHead.Untouched
  congr h hsame := h.congr hsame

section Steps

variable [DecidableEq ν] [DecidableEq η] [DecidableEq κ]

def exec (heap : Heap ν η κ) : Op ν η κ → Kernel (Heap ν η κ)
  | .listAdd new head => pure { heap with links := listAdd heap.links new head }
  | .listAddTail new head => pure { heap with links := listAddTail heap.links new head }
  | .listDel entry => pure { heap with links := listDel heap.links entry }
  | .hlistAddHead new head => pure { heap with cells := hlistAddHead heap.cells new head }
  | .hlistAddBefore new node => do
    let cells ← hlistAddBefore heap.cells new node
    pure { heap with cells }
  | .hlistAddAfter new node => pure { heap with cells := hlistAddAfter heap.cells new node }
  | .hlistDel node => do
    let cells ← hlistDel heap.cells node
    pure { heap with cells }

/-- The insertions and deletions in the sequences. -/
def Lists.apply (a : Lists ν η κ) : Op ν η κ → Lists ν η κ
  | .listAdd new head =>
    { a with lists := Function.update a.lists head ((a.lists head).map (new :: ·)) }
  | .listAddTail new head =>
    { a with lists := Function.update a.lists head ((a.lists head).map (· ++ [new])) }
  | .listDel entry => { a with lists := fun head => (a.lists head).map (·.erase entry) }
  | .hlistAddHead new head =>
    { a with hlists := Function.update a.hlists head ((a.hlists head).map (new :: ·)) }
  | .hlistAddBefore new node =>
    { a with hlists := fun head => (a.hlists head).map (insertBefore new node) }
  | .hlistAddAfter new node =>
    { a with hlists := fun head => (a.hlists head).map (insertAfter new node) }
  | .hlistDel node => { a with hlists := fun head => (a.hlists head).map (·.erase node) }

/-- A node is added only when on no list, next to a head or node of one, and deleted only when on
one. -/
def Lists.Enabled (a : Lists ν η κ) : Op ν η κ → Prop
  | .listAdd new head | .listAddTail new head =>
    Free circular a.lists new ∧ ∃ xs, a.lists head = some xs
  | .listDel entry => ∃ head xs, a.lists head = some xs ∧ entry ∈ xs
  | .hlistAddHead new head => Free hashed a.hlists new ∧ ∃ xs, a.hlists head = some xs
  | .hlistAddBefore new node | .hlistAddAfter new node =>
    Free hashed a.hlists new ∧ ∃ head xs, a.hlists head = some xs ∧ node ∈ xs
  | .hlistDel node => ∃ head xs, a.hlists head = some xs ∧ node ∈ xs

/-! ## What is asked of them -/

/-- list_for_each and hlist_for_each visit the members, the backward links undo the forward ones,
and only lists without members are empty. -/
structure Shows (heap : Heap ν η κ) (a : Lists ν η κ) : Prop where
  forEach : ∀ head xs, a.lists head = some xs → ∀ fuel, xs.length < fuel →
    listForEach heap.links head fuel (heap.links.next head) = some xs
  inverse : ∀ head xs, a.lists head = some xs → ∀ x ∈ head :: xs,
    heap.links.prev (heap.links.next x) = x ∧ heap.links.next (heap.links.prev x) = x
  empty : ∀ head xs, a.lists head = some xs → (listEmpty heap.links head ↔ xs = [])
  hForEach : ∀ head xs, a.hlists head = some xs → ∀ fuel, xs.length < fuel →
    hlistForEach heap.cells fuel (heap.cells.first head) = some xs
  pprev : ∀ head xs, a.hlists head = some xs → ∀ x ∈ xs,
    ∃ s, heap.cells.pprev x = some s ∧ heap.cells.load s = some x
  hEmpty : ∀ head xs, a.hlists head = some xs → (hlistEmpty heap.cells head ↔ xs = [])

/-- The nodes and heads of lists that stay the same are not written to. -/
structure Framed (heap heap' : Heap ν η κ) (a a' : Lists ν η κ) : Prop where
  lists : Frame circular heap.links heap'.links a.lists a'.lists
  hlists : Frame hashed heap.cells heap'.cells a.hlists a'.hlists

/-- The state of the lists after every call of a sequence, as long as the calls are enabled. -/
def Stays : Heap ν η κ → Lists ν η κ → List (Op ν η κ) → Prop
  | _, _, [] => True
  | heap, a, op :: ops => a.Enabled op → ∃ heap', exec heap op = .ok heap' ∧
      Shows heap' (a.apply op) ∧ Framed heap heap' a (a.apply op) ∧ Stays heap' (a.apply op) ops

/-- The representation the calls keep. -/
structure Rep (heap : Heap ν η κ) (a : Lists ν η κ) : Prop where
  lists : Represents circular heap.links a.lists
  hlists : Represents hashed heap.cells a.hlists

end Steps

variable {heap : Heap ν η κ} {a : Lists ν η κ}

theorem Rep.shows [DecidableEq ν] (h : Rep heap a) : Shows heap a where
  forEach head xs hxs _ hfuel := IsList.forEach (h.lists.each head xs hxs) hfuel
  inverse head xs hxs x hx := by
    have hlist : IsList heap.links head xs := h.lists.each head xs hxs
    obtain ⟨⟨-, hback⟩, -, hforth⟩ := hlist.inverse hx
    exact ⟨hback, hforth⟩
  empty head xs hxs := IsList.empty_iff (h.lists.each head xs hxs)
  hForEach head xs hxs _ hfuel := IsHlist.forEach (h.hlists.each head xs hxs) hfuel
  pprev head xs hxs _ hx := IsHlist.pprev (h.hlists.each head xs hxs) hx
  hEmpty head xs hxs := IsHlist.empty_iff (h.hlists.each head xs hxs)

/-! ## Circular lists -/

section Circular

variable [DecidableEq ν] {l : Links ν} {b : ν → Option (List ν)} {head new e : ν} {xs xs' : List ν}

/-- A free node comes in behind the head or a member. -/
theorem represents_listAdd (h : Represents circular l b) (hb : b head = some xs)
    (hfree : Free circular b new) (he : e ∈ head :: xs) (hlist : IsList (listAdd l new e) head xs')
    (hmem : ∀ x ∈ xs', x = new ∨ x ∈ xs) (hne : xs' ≠ xs) :
    Represents circular (listAdd l new e) (Function.update b head (some xs')) ∧
      Frame circular l (listAdd l new e) b (Function.update b head (some xs')) := by
  refine h.edit hb hne hlist (fun x hx => ?_) fun j ys hj hys x hx => ?_
  · rcases List.mem_cons.mp hx with rfl | hin
    · exact .inl (List.mem_cons_self ..)
    · rcases hmem x hin with rfl | hold
      · exact .inr hfree
      · exact .inl (List.mem_cons_of_mem head hold)
  · exact listAdd_outside (h.each head xs hb) he (h.not_owned hb hys hj hx)
      fun heq => hfree j ys hys (heq ▸ hx)

theorem represents_listDel (h : Represents circular l b) (hb : b head = some xs) (he : e ∈ xs) :
    Represents circular (listDel l e) (Function.update b head (some (xs.erase e))) ∧
      Frame circular l (listDel l e) b (Function.update b head (some (xs.erase e))) := by
  have hlist : IsList l head xs := h.each head xs hb
  have hne : xs.erase e ≠ xs := by
    intro heq
    have hlen := List.length_erase_of_mem he
    have hpos := List.length_pos_of_mem he
    rw [heq] at hlen
    omega
  refine h.edit hb hne (hlist.del he) (fun x hx => .inl ?_) fun j ys hj hys x hx => ?_
  · exact List.cons_subset_cons head (List.erase_subset) hx
  · exact listDel_outside hlist he (h.not_owned hb hys hj hx)

/-- Deleting a member is felt by its list only. -/
theorem map_erase (h : Represents circular l b) (hb : b head = some xs) (he : e ∈ xs) :
    (fun j => (b j).map (·.erase e)) = Function.update b head (some (xs.erase e)) := by
  refine map_eq_update hb fun j ys hj hys => List.erase_of_not_mem fun hmem => ?_
  exact h.not_owned hb hys hj (List.mem_cons_of_mem j hmem) (List.mem_cons_of_mem head he)

end Circular

/-! ## Hash lists -/

section Hashed

variable [DecidableEq η] [DecidableEq κ] {c : Cells η κ} {b : η → Option (List κ)} {head : η}
  {new node : κ} {xs ys zs : List κ}

/-- A free node comes in at a place of a list. -/
theorem represents_insert (h : Represents hashed c b) (hb : b head = some (ys ++ zs))
    (hfree : Free hashed b new) :
    Represents hashed (c.insert (endSlot (.first head) ys) new)
        (Function.update b head (some (ys ++ new :: zs))) ∧
      Frame hashed c (c.insert (endSlot (.first head) ys) new) b
        (Function.update b head (some (ys ++ new :: zs))) := by
  have hlist : IsHlist c head (ys ++ zs) := h.each head _ hb
  have hnew : new ∉ ys ++ zs := hfree head _ hb
  have hne : ys ++ new :: zs ≠ ys ++ zs := by
    intro heq
    have hlen := congrArg List.length heq
    simp only [List.length_append, List.length_cons] at hlen
    omega
  refine h.edit hb hne (hlist.insert hnew) (fun x hx => ?_) fun j ws hj hws => ?_
  · have hx' : x ∈ ys ++ new :: zs := hx
    rcases List.mem_cons.mp (List.perm_middle.mem_iff.mp hx') with rfl | hold
    · exact .inr hfree
    · exact .inl hold
  · exact insert_untouched hlist hj (fun x hx => h.not_owned hb hws hj hx) (hfree j ws hws)

theorem represents_remove (h : Represents hashed c b) (hb : b head = some (ys ++ node :: zs)) :
    Represents hashed (c.remove node (endSlot (.first head) ys))
        (Function.update b head (some (ys ++ zs))) ∧
      Frame hashed c (c.remove node (endSlot (.first head) ys)) b
        (Function.update b head (some (ys ++ zs))) := by
  have hlist : IsHlist c head (ys ++ node :: zs) := h.each head _ hb
  have hne : ys ++ zs ≠ ys ++ node :: zs := by
    intro heq
    have hlen := congrArg List.length heq
    simp only [List.length_append, List.length_cons] at hlen
    omega
  refine h.edit hb hne hlist.remove (fun x hx => .inl ?_) fun j ws hj hws => ?_
  · exact List.perm_middle.mem_iff.mpr (List.mem_cons_of_mem node hx)
  · exact remove_untouched hlist hj fun x hx => h.not_owned hb hws hj hx

omit [DecidableEq κ] in
/-- A change around one node is felt by its list only. -/
theorem map_around {f : List κ → List κ} (h : Represents hashed c b) (hb : b head = some xs)
    (hnode : node ∈ xs) (hf : ∀ ws, node ∉ ws → f ws = ws) :
    (fun j => (b j).map f) = Function.update b head (some (f xs)) :=
  map_eq_update hb fun _ ws hj hws =>
    hf ws fun hmem => h.not_owned hb hws hj hmem hnode

omit [DecidableEq η] [DecidableEq κ] in
/-- A member with what is before and behind it. -/
theorem split_of_mem (h : Represents hashed c b) (hb : b head = some xs) (hnode : node ∈ xs) :
    ∃ ys zs, xs = ys ++ node :: zs ∧ node ∉ ys ∧
      c.pprev node = some (endSlot (.first head) ys) ∧
      c.load (endSlot (.first head) ys) = some node := by
  obtain ⟨ys, zs, rfl⟩ := List.append_of_mem hnode
  have hlist : IsHlist c head (ys ++ node :: zs) := h.each head _ hb
  have hys : node ∉ ys := fun hmem =>
    (List.nodup_append'.mp hlist.nodup).2.2 hmem (List.mem_cons_self ..)
  exact ⟨ys, zs, rfl, hys, hlist.linked.pprev_eq, hlist.linked.load_endSlot⟩

end Hashed

/-! ## Every sequence -/

theorem frame_circular (l : Links ν) (b : ν → Option (List ν)) : Frame circular l l b b :=
  fun _ _ _ _ _ _ => ⟨rfl, rfl⟩

theorem frame_hashed (c : Cells η κ) (b : η → Option (List κ)) : Frame hashed c c b b :=
  fun _ _ _ _ => ⟨rfl, fun _ _ => ⟨rfl, rfl⟩⟩

/-- A call on a circular list. -/
theorem Rep.lists_step (h : Rep heap a) {l' : Links ν} {b' : ν → Option (List ν)}
    (hl : Represents circular l' b' ∧ Frame circular heap.links l' a.lists b') :
    Rep { heap with links := l' } { a with lists := b' } ∧
      Framed heap { heap with links := l' } a { a with lists := b' } :=
  ⟨⟨hl.1, h.hlists⟩, ⟨hl.2, frame_hashed heap.cells a.hlists⟩⟩

theorem Rep.hlists_step (h : Rep heap a) {c' : Cells η κ} {b' : η → Option (List κ)}
    (hc : Represents hashed c' b' ∧ Frame hashed heap.cells c' a.hlists b') :
    Rep { heap with cells := c' } { a with hlists := b' } ∧
      Framed heap { heap with cells := c' } a { a with hlists := b' } :=
  ⟨⟨h.lists, hc.1⟩, ⟨frame_circular heap.links a.lists, hc.2⟩⟩

section Runs

variable [DecidableEq ν] [DecidableEq η] [DecidableEq κ]

/-- One enabled call. -/
theorem Rep.step (h : Rep heap a) (op : Op ν η κ) (hop : a.Enabled op) :
    ∃ heap', exec heap op = .ok heap' ∧ Rep heap' (a.apply op) ∧
      Framed heap heap' a (a.apply op) := by
  cases op with
  | listAdd new head =>
    obtain ⟨hfree, xs, hxs⟩ := hop
    have hlist : IsList heap.links head xs := h.lists.each head xs hxs
    have hadd := represents_listAdd h.lists hxs hfree (List.mem_cons_self ..)
      (hlist.add (hfree head xs hxs)) (fun x hx => List.mem_cons.mp hx) (by simp)
    refine ⟨_, rfl, ?_⟩
    rw [Lists.apply, hxs]
    exact h.lists_step hadd
  | listAddTail new head =>
    obtain ⟨hfree, xs, hxs⟩ := hop
    have hlist : IsList heap.links head xs := h.lists.each head xs hxs
    have htail := hlist.addTail (hfree head xs hxs)
    rw [listAddTail_eq hlist] at htail
    have hadd := represents_listAdd h.lists hxs hfree hlist.prev_head.1 htail
      (fun x hx => (List.mem_append.mp hx).symm.imp_left List.mem_singleton.mp) (by simp)
    refine ⟨_, rfl, ?_⟩
    rw [Lists.apply, hxs, listAddTail_eq hlist]
    exact h.lists_step hadd
  | listDel entry =>
    obtain ⟨head, xs, hxs, hentry⟩ := hop
    refine ⟨_, rfl, ?_⟩
    rw [Lists.apply, map_erase h.lists hxs hentry]
    exact h.lists_step (represents_listDel h.lists hxs hentry)
  | hlistAddHead new head =>
    obtain ⟨hfree, xs, hxs⟩ := hop
    refine ⟨_, rfl, ?_⟩
    rw [Lists.apply, hxs, hlistAddHead_eq]
    have hsplit : a.hlists head = some ([] ++ xs) := hxs
    exact h.hlists_step (represents_insert h.hlists hsplit hfree)
  | hlistAddBefore new node =>
    obtain ⟨hfree, head, xs, hxs, hnode⟩ := hop
    obtain ⟨ys, zs, rfl, hys, hpprev, hload⟩ := split_of_mem h.hlists hxs hnode
    have hne : new ≠ node := fun heq => hfree head _ hxs (heq ▸ hnode)
    refine ⟨_, by rw [exec, hlistAddBefore_eq hpprev hload hne]; rfl, ?_⟩
    rw [Lists.apply, map_around h.hlists hxs hnode fun ws => insertBefore_of_not_mem,
      insertBefore_append hys]
    exact h.hlists_step (represents_insert h.hlists hxs hfree)
  | hlistAddAfter new node =>
    obtain ⟨hfree, head, xs, hxs, hnode⟩ := hop
    obtain ⟨ys, zs, rfl, hys, -, -⟩ := split_of_mem h.hlists hxs hnode
    refine ⟨_, rfl, ?_⟩
    rw [Lists.apply, map_around h.hlists hxs hnode fun ws => insertAfter_of_not_mem,
      insertAfter_append hys, hlistAddAfter_eq]
    -- the place behind the node is the end of what ends with it
    have hsplit : a.hlists head = some (ys ++ [node] ++ zs) := by
      rw [hxs, List.append_assoc, List.singleton_append]
    have hinsert := represents_insert h.hlists hsplit hfree
    rw [endSlot_concat, List.append_assoc, List.singleton_append] at hinsert
    exact h.hlists_step hinsert
  | hlistDel node =>
    obtain ⟨head, xs, hxs, hnode⟩ := hop
    obtain ⟨ys, zs, rfl, hys, hpprev, -⟩ := split_of_mem h.hlists hxs hnode
    refine ⟨_, by rw [exec, hlistDel_eq hpprev]; rfl, ?_⟩
    rw [Lists.apply, map_around h.hlists hxs hnode fun ws => List.erase_of_not_mem,
      List.erase_append_right _ hys, List.erase_cons_head]
    exact h.hlists_step (represents_remove h.hlists hxs)

/-- Every sequence of calls, from every heap whose lists are well formed. -/
theorem lists_stay (heap : Heap ν η κ) (a : Lists ν η κ) (h : Rep heap a)
    (ops : List (Op ν η κ)) : Shows heap a ∧ Stays heap a ops := by
  refine ⟨h.shows, ?_⟩
  induction ops generalizing heap a with
  | nil => trivial
  | cons op ops ih =>
    intro hop
    obtain ⟨heap', hexec, hrep, hframed⟩ := h.step op hop
    exact ⟨heap', hexec, hrep.shows, hframed, ih heap' (a.apply op) hrep⟩

end Runs

/-! ## From any heap on -/

section Init

variable [DecidableEq ν] [DecidableEq η]

/-- INIT_LIST_HEAD and INIT_HLIST_HEAD of some heads. -/
def initHeap (heap : Heap ν η κ) (heads : List ν) (hheads : List η) : Heap ν η κ where
  links := heads.foldl initListHead heap.links
  cells := hheads.foldl initHlistHead heap.cells

def noMembers (κ : Type) (heads : List ν) (hheads : List η) : Lists ν η κ where
  lists head := if head ∈ heads then some [] else none
  hlists head := if head ∈ hheads then some [] else none

theorem selfLinked_foldl {heads : List ν} {l : Links ν} {head : ν}
    (h : SelfLinked l head ∨ head ∈ heads) : SelfLinked (heads.foldl initListHead l) head := by
  induction heads generalizing l with
  | nil => exact h.resolve_right List.not_mem_nil
  | cons first heads ih =>
    refine ih ?_
    by_cases hfirst : head = first
    · exact .inl (hfirst ▸ selfLinked_initListHead l head)
    · obtain ⟨hnext, hprev⟩ := initListHead_untouched (l := l) hfirst
      refine h.imp (fun hself => ⟨hnext.trans hself.1, hprev.trans hself.2⟩) fun hmem => ?_
      exact (List.mem_cons.mp hmem).resolve_left hfirst

theorem first_foldl {hheads : List η} {c : Cells η κ} {head : η}
    (h : c.first head = none ∨ head ∈ hheads) :
    (hheads.foldl initHlistHead c).first head = none := by
  induction hheads generalizing c with
  | nil => exact h.resolve_right List.not_mem_nil
  | cons first hheads ih =>
    refine ih ?_
    by_cases hfirst : head = first
    · exact .inl (hfirst ▸ Function.update_self ..)
    · refine h.imp (fun hnone => (Function.update_of_ne hfirst ..).trans hnone) fun hmem => ?_
      exact (List.mem_cons.mp hmem).resolve_left hfirst

/-- Initialised heads have lists without members, whatever the heap held. -/
theorem rep_init (heap : Heap ν η κ) (heads : List ν) (hheads : List η) :
    Rep (initHeap heap heads hheads) (noMembers κ heads hheads) := by
  refine ⟨⟨fun head xs hxs => ?_, fun i j xs ys hij hi hj => ?_⟩,
    ⟨fun head xs hxs => ?_, fun i j xs ys _ hi _ => ?_⟩⟩
  · obtain ⟨hmem, hnil⟩ := Option.ite_none_right_eq_some.mp hxs
    cases hnil
    exact isList_nil.mpr (selfLinked_foldl (.inr hmem))
  · cases (Option.ite_none_right_eq_some.mp hi).2
    cases (Option.ite_none_right_eq_some.mp hj).2
    exact List.disjoint_singleton.mpr fun hmem => hij (List.mem_singleton.mp hmem).symm
  · obtain ⟨hmem, hnil⟩ := Option.ite_none_right_eq_some.mp hxs
    cases hnil
    exact ⟨List.nodup_nil, first_foldl (.inr hmem)⟩
  · cases (Option.ite_none_right_eq_some.mp hi).2
    exact List.disjoint_nil_left ys

/-- Two circular lists that a node moves between, and a hash list. -/
def moves : List (Op Nat Nat Nat) :=
  [.listAdd 2 0, .listAddTail 3 0, .listDel 2, .listAdd 2 1, .hlistAddHead 5 0,
    .hlistAddBefore 6 5, .hlistAddAfter 7 5, .hlistDel 5]

/-- A heap of dangling pointers. -/
def junk : Heap Nat Nat Nat where
  links := ⟨fun _ => 9, fun _ => 9⟩
  cells := ⟨fun _ => some 9, fun _ => some 9, fun _ => none⟩

theorem lists_stay_moves :
    Rep (initHeap junk [0, 1] [0]) (noMembers Nat [0, 1] [0]) ∧
      Shows (initHeap junk [0, 1] [0]) (noMembers Nat [0, 1] [0]) ∧
      Stays (initHeap junk [0, 1] [0]) (noMembers Nat [0, 1] [0]) moves := by
  have hrep := rep_init junk [0, 1] [0]
  exact ⟨hrep, lists_stay _ _ hrep moves⟩

/-- What the traversals visit in the end. -/
example : ((moves.foldlM exec (initHeap junk [0, 1] [0])).map fun heap =>
    (listForEach heap.links 0 4 (heap.links.next 0), listForEach heap.links 1 4 (heap.links.next 1),
      hlistForEach heap.cells 4 (heap.cells.first 0))) =
    .ok (some [3], some [2], some [6, 7]) := by decide

end Init

end RxdOs.Base.ListRuns
