/- RxdOs/Fs/AliasLists
   source: fs/fs.c (get_inode, create_inode, create_dentry, get_dentry, put_dentry, fs_init)
   digest: The alias list of every listed inode, along the runs of the inode and dentry calls. -/

import RxdOs.Fs.CacheReach

set_option autoImplicit false
set_option relaxedAutoImplicit false

namespace RxdOs.Fs.AliasLists

open RxdOs.Base.Assert RxdOs.Base.ListHead RxdOs.Lib.CircularList RxdOs.Lib.Execution
  RxdOs.Fs.Bitmap RxdOs.Fs.Layout RxdOs.Fs.Zone RxdOs.Fs.InodeCache RxdOs.Fs.Name RxdOs.Fs.Dir
  RxdOs.Fs.DentryCache RxdOs.Fs.Open RxdOs.Fs.CacheReach

/-- A call on the inode and dentry caches. -/
inductive Call
  | getInode (inum : Nat) (env : Env)
  | createInode (mode : Nat) (env : Env)
  | createDentry (parent : DentryPtr) (dname : QStr) (inode : InodePtr) (env : Env)
  | getDentry (parent : DentryPtr) (dname : QStr) (env : Env)
  | putDentry (dentry : DentryPtr) (env : Env)

/-- A call returns; dentries and inodes are passed as pointers to cached ones. -/
inductive Step (s : FsState) : Call → FsState → Prop
  | getInode {inum : Nat} {env : Env} {p : InodePtr} {vol : Volume}
      (h : getInode s.vol inum (env.inodeAt s.vol.inodeList) = .ok (p, vol)) :
      Step s (.getInode inum env) { s with vol := vol }
  | createInode {mode : Nat} {env : Env} {p : InodePtr} {s' : FsState}
      (h : newInodeOf s mode env = .ok (p, s')) : Step s (.createInode mode env) s'
  | createDentry {parent : DentryPtr} {dname : QStr} {inode : InodePtr} {env : Env}
      {r : Option DentryPtr} {s' : FsState} (hparent : parent ∈ s.dentryList)
      (hinode : inode ∈ s.vol.inodeList)
      (h : createDentry s parent dname inode env = .ok (r, s')) :
      Step s (.createDentry parent dname inode env) s'
  | getDentry {parent : DentryPtr} {dname : QStr} {env : Env} {r : Option DentryPtr}
      {s' : FsState} (hparent : parent ∈ s.dentryList)
      (h : getDentry s parent dname env = .ok (r, s')) : Step s (.getDentry parent dname env) s'
  | putDentry {dentry : DentryPtr} {env : Env} {s' : FsState} (hd : dentry ∈ s.dentryList)
      (h : putDentry s dentry env = .ok s') : Step s (.putDentry dentry env) s'

/-- The node of a cached dentry whose d_inode is `p`. -/
def AliasOf (s : FsState) (p : InodePtr) (x : Node) : Prop :=
  ∃ d ∈ s.dentryList, x = .alias d ∧ (s.dentry d).dInode = some p

/-- A node of the list of `p`. -/
def Member (s : FsState) (p : InodePtr) (x : Node) : Prop := x = .head p ∨ AliasOf s p x

/-- i_dentry of `p` is a circular doubly linked list of exactly the cached dentries of `p`. -/
def AliasList (s : FsState) (p : InodePtr) : Prop :=
  ∃ xs, IsList s.links (.head p) xs ∧ ∀ x, x ∈ xs ↔ AliasOf s p x

def WellFormed (s : FsState) : Prop := ∀ p ∈ s.vol.inodeList, AliasList s p

/-- A dentry that is linked to an inode in this step is list_added to the list of the inode,
and all that list_add writes to are nodes of that list. -/
def LinksWithin (s : FsState) (_ : Call) (s' : FsState) : Prop :=
  ∀ d p, d ∉ s.dentryList → d ∈ s'.dentryList → (s'.dentry d).dInode = some p →
    s'.links = listAdd s.links (.alias d) (.head p) ∧
      ∀ x ∈ addWrites s.links (.alias d) (.head p), Member s' p x

/-- A cached dentry is linked to the inode object. -/
def Linked (s : FsState) (p : InodePtr) : Prop := ∃ d ∈ s.dentryList, (s.dentry d).dInode = some p

/-- The object kmem_cache_alloc(inode_cache) hands out. -/
def nextInode (s : FsState) (env : Env) : InodePtr := .obj (env.inodeAt s.vol.inodeList)

/-- get_dentry has to read in an inode that is not cached. -/
def ReadsIn (s : FsState) (parent : DentryPtr) (dname : QStr) (env : Env) : Prop :=
  ∃ dir pos inum, (s.dentry parent).dInode = some dir ∧ findDentry s parent dname = none ∧
    lookupDisk s dir dname env = .ok (pos, inum) ∧ 0 ≤ pos ∧ findInode s.vol inum = none

/-- get_inode finds i_dentry of the object it fills in ready to use, and create_inode gets no
object that a cached dentry is still linked to. -/
def Ready (s : FsState) : Call → Prop
  | .getInode inum env => findInode s.vol inum = none →
      Linked s (nextInode s env) ∨ SelfLinked s.links (.head (nextInode s env))
  | .createInode _ env => ¬Linked s (nextInode s env)
  | .createDentry parent dname _ env | .getDentry parent dname env =>
      ReadsIn s parent dname env →
        Linked s (nextInode s env) ∨ listEmpty s.links (.head (nextInode s env))
  | .putDentry _ _ => True

/-- The lists of the listed inodes, and of those a cached dentry is linked to. -/
def Kept (s : FsState) : Prop := ∀ p, p ∈ s.vol.inodeList ∨ Linked s p → AliasList s p

variable {s s' : FsState} {env : Env} {d parent : DentryPtr} {p q : InodePtr} {x : Node}

theorem Kept.wellFormed (h : Kept s) : WellFormed s := fun p hp => h p (.inl hp)

theorem Linked.aliasOf (h : Linked s p) : ∃ x, AliasOf s p x := by
  obtain ⟨d, hd, hp⟩ := h
  exact ⟨.alias d, d, hd, rfl, hp⟩

theorem AliasOf.linked (h : AliasOf s p x) : Linked s p := by
  obtain ⟨d, hd, -, hp⟩ := h
  exact ⟨d, hd, hp⟩

/-- No node is in two lists. -/
theorem Member.unique (hp : Member s p x) (hq : Member s q x) : p = q := by
  rcases hp with rfl | ⟨d, -, rfl, hp⟩ <;> rcases hq with hq | ⟨d', -, hq, hq'⟩
  · exact Node.head.inj hq
  · cases hq
  · cases hq
  · obtain rfl := Node.alias.inj hq
    exact Option.some.inj (hp.symm.trans hq')

theorem AliasList.mem_iff {xs : List Node} (hxs : ∀ x, x ∈ xs ↔ AliasOf s p x) :
    x ∈ Node.head p :: xs ↔ Member s p x := by
  rw [List.mem_cons, hxs]
  rfl

/-- next and prev of a node of the list are nodes of the list, and undo each other. -/
theorem AliasList.inverse (h : AliasList s p) (hx : Member s p x) :
    (Member s p (s.links.next x) ∧ s.links.prev (s.links.next x) = x) ∧
      Member s p (s.links.prev x) ∧ s.links.next (s.links.prev x) = x := by
  obtain ⟨xs, hring, hxs⟩ := h
  obtain ⟨⟨hnext, hback⟩, hprev, hforth⟩ := Circular.inverse hring ((mem_iff hxs).mpr hx)
  exact ⟨⟨(mem_iff hxs).mp hnext, hback⟩, (mem_iff hxs).mp hprev, hforth⟩

/-- A list that no dentry is on is a self-linked head. -/
theorem AliasList.selfLinked (h : AliasList s p) (hnone : ¬Linked s p) :
    SelfLinked s.links (.head p) := by
  obtain ⟨xs, hring, hxs⟩ := h
  have hempty : xs = [] := by
    apply List.eq_nil_iff_forall_not_mem.mpr
    intro x hx
    exact hnone ((hxs x).mp hx).linked
  rw [hempty] at hring
  exact isList_nil.mp hring

theorem AliasList.not_linked (h : AliasList s p) (hempty : listEmpty s.links (.head p)) :
    ¬Linked s p := by
  obtain ⟨xs, hring, hxs⟩ := h
  intro hlinked
  obtain ⟨x, hx⟩ := hlinked.aliasOf
  have hmem : x ∈ xs := (hxs x).mpr hx
  rw [Circular.eq_nil hring hempty] at hmem
  cases hmem

theorem AliasList.of_selfLinked (h : SelfLinked s.links (.head p)) (hnone : ¬Linked s p) :
    AliasList s p := by
  refine ⟨[], isList_nil.mpr h, fun x => ?_⟩
  constructor
  · intro hx
    cases hx
  · intro hx
    exact absurd hx.linked hnone

/-- The list of `p` depends on its own nodes only. -/
theorem AliasList.frame (h : AliasList s p)
    (hlinks : ∀ x, Member s p x → Untouched s.links s'.links x)
    (hof : ∀ x, AliasOf s' p x ↔ AliasOf s p x) : AliasList s' p := by
  obtain ⟨xs, hring, hxs⟩ := h
  refine ⟨xs, hring.congr fun x hx => hlinks x ((mem_iff hxs).mp hx), fun x => ?_⟩
  rw [hxs, hof]

/-- Calls that leave dentries and links alone. -/
theorem AliasList.same (h : AliasList s p) (hlinks : s'.links = s.links)
    (hlist : s'.dentryList = s.dentryList) (hdentry : s'.dentry = s.dentry) : AliasList s' p := by
  refine h.frame (fun x _ => ?_) fun x => ?_
  · rw [hlinks]
    exact ⟨rfl, rfl⟩
  · rw [AliasOf, AliasOf, hlist, hdentry]

/-! ## Linking -/

section Link

variable {dName : DName}

theorem addDentry_dInode (hd : d ≠ parent) (y : DentryPtr) :
    ((addDentry s d parent dName p).dentry y).dInode =
      if y = d then some p else (s.dentry y).dInode := by
  by_cases hy : y = d
  · rw [hy, addDentry_self hd, if_pos rfl]
  · rw [addDentry_of_ne hd hy, if_neg hy]

theorem addDentry_aliasOf (hd : d ≠ parent) (hfresh : d ∉ s.dentryList) :
    AliasOf (addDentry s d parent dName p) q x ↔ (x = .alias d ∧ q = p) ∨ AliasOf s q x := by
  constructor
  · rintro ⟨y, hy, rfl, hq⟩
    rw [addDentry_dInode hd] at hq
    rcases List.mem_cons.mp hy with rfl | hy
    · rw [if_pos rfl] at hq
      exact .inl ⟨rfl, (Option.some.inj hq).symm⟩
    · have hne : y ≠ d := fun heq => hfresh (heq ▸ hy)
      rw [if_neg hne] at hq
      exact .inr ⟨y, hy, rfl, hq⟩
  · rintro (⟨rfl, rfl⟩ | ⟨y, hy, rfl, hq⟩)
    · exact ⟨d, List.mem_cons_self .., rfl, by rw [addDentry_dInode hd, if_pos rfl]⟩
    · have hne : y ≠ d := fun heq => hfresh (heq ▸ hy)
      refine ⟨y, List.mem_cons_of_mem d hy, rfl, ?_⟩
      rw [addDentry_dInode hd, if_neg hne, hq]

theorem alias_not_member (hfresh : d ∉ s.dentryList) : ¬Member s q (.alias d) := by
  rintro (heq | ⟨y, hy, heq, -⟩)
  · cases heq
  · exact hfresh (Node.alias.inj heq ▸ hy)

/-- The nodes list_add writes to, for a list that is well formed or at least empty. -/
theorem addWrites_member (h : AliasList s p ∨ listEmpty s.links (.head p))
    (hx : x ∈ addWrites s.links (.alias d) (.head p)) : x = .alias d ∨ Member s p x := by
  simp only [addWrites, List.mem_cons, List.not_mem_nil, or_false] at hx
  rcases hx with rfl | rfl | rfl | rfl
  · refine .inr ?_
    rcases h with h | h
    · exact (h.inverse (.inl rfl)).1.1
    · exact .inl h
  · exact .inl rfl
  · exact .inl rfl
  · exact .inr (.inl rfl)

/-- The list a dentry is linked to. -/
theorem AliasList.link (h : AliasList s p ∨ listEmpty s.links (.head p) ∧ ¬Linked s p)
    (hd : d ≠ parent) (hfresh : d ∉ s.dentryList) :
    AliasList (addDentry s d parent dName p) p := by
  rcases h with ⟨xs, hring, hxs⟩ | ⟨hempty, hnone⟩
  · have hnew : Node.alias d ∉ Node.head p :: xs := by
      intro hmem
      exact alias_not_member hfresh ((mem_iff hxs).mp hmem)
    refine ⟨.alias d :: xs, hring.add hnew, fun x => ?_⟩
    rw [addDentry_aliasOf hd hfresh, List.mem_cons, hxs]
    simp only [and_true]
  · refine ⟨[.alias d], isList_add_empty hempty (fun heq => by cases heq), fun x => ?_⟩
    rw [addDentry_aliasOf hd hfresh, List.mem_singleton]
    simp only [and_true]
    constructor
    · exact .inl
    · rintro (hx | hx)
      · exact hx
      · exact absurd hx.linked hnone

/-- The other lists. -/
theorem AliasList.link_other (hq : AliasList s q) (hne : q ≠ p)
    (h : AliasList s p ∨ listEmpty s.links (.head p)) (hd : d ≠ parent)
    (hfresh : d ∉ s.dentryList) : AliasList (addDentry s d parent dName p) q := by
  refine hq.frame (fun x hx => ?_) fun x => ?_
  · refine listAdd_untouched fun hwrite => ?_
    rcases addWrites_member h hwrite with rfl | hmem
    · exact alias_not_member hfresh hx
    · exact hne (hx.unique hmem)
  · rw [addDentry_aliasOf hd hfresh]
    constructor
    · rintro (⟨-, heq⟩ | hx)
      · exact absurd heq hne
      · exact hx
    · exact .inr

/-- Linking a new dentry keeps the lists. -/
theorem Kept.link (h : ∀ q, q ≠ p → q ∈ s.vol.inodeList ∨ Linked s q → AliasList s q)
    (hp : AliasList s p ∨ listEmpty s.links (.head p) ∧ ¬Linked s p) (hd : d ≠ parent)
    (hfresh : d ∉ s.dentryList) : Kept (addDentry s d parent dName p) := by
  intro q hq
  by_cases hqp : q = p
  · rw [hqp]
    exact AliasList.link hp hd hfresh
  · have hold : q ∈ s.vol.inodeList ∨ Linked s q := by
      refine hq.imp_right fun hlinked => ?_
      obtain ⟨x, hx⟩ := hlinked.aliasOf
      rw [addDentry_aliasOf hd hfresh] at hx
      rcases hx with ⟨-, heq⟩ | hx
      · exact absurd heq hqp
      · exact hx.linked
    exact (h q hqp hold).link_other hqp (hp.imp_right And.left) hd hfresh

/-- A list that is well formed after a link and had no dentry before was empty before. -/
theorem listEmpty_of_link (h : AliasList (addDentry s d parent dName p) p) (hd : d ≠ parent)
    (hfresh : d ∉ s.dentryList) (hnone : ¬Linked s p) : listEmpty s.links (.head p) := by
  have hmembers : ∀ x, AliasOf (addDentry s d parent dName p) p x → x = .alias d := by
    intro x hx
    rcases (addDentry_aliasOf hd hfresh).mp hx with ⟨heq, -⟩ | hx
    · exact heq
    · exact absurd hx.linked hnone
  have hnew : Member (addDentry s d parent dName p) p (.alias d) :=
    .inr ((addDentry_aliasOf hd hfresh).mpr (.inl ⟨rfl, rfl⟩))
  obtain ⟨⟨hfirst, hback⟩, -⟩ := h.inverse hnew
  have hnext : (addDentry s d parent dName p).links.next (.alias d) = s.links.next (.head p) :=
    listAdd_next_new fun heq => by cases heq
  have hprev : (addDentry s d parent dName p).links.prev (.alias d) = .head p := listAdd_prev_new
  rcases hfirst with hfirst | hfirst
  · rw [hnext] at hfirst
    exact hfirst
  · rw [hmembers _ hfirst, hprev] at hback
    cases hback

/-- When the list that results is well formed, list_add has written within it. -/
theorem link_within (h : AliasList (addDentry s d parent dName p) p) (hd : d ≠ parent)
    (hfresh : d ∉ s.dentryList) :
    ∀ x ∈ addWrites s.links (.alias d) (.head p), Member (addDentry s d parent dName p) p x := by
  have hnew : Member (addDentry s d parent dName p) p (.alias d) :=
    .inr ((addDentry_aliasOf hd hfresh).mpr (.inl ⟨rfl, rfl⟩))
  have hfirst := (h.inverse hnew).1.1
  have hnext : (addDentry s d parent dName p).links.next (.alias d) = s.links.next (.head p) :=
    listAdd_next_new fun heq => by cases heq
  rw [hnext] at hfirst
  intro x hx
  simp only [addWrites, List.mem_cons, List.not_mem_nil, or_false] at hx
  rcases hx with rfl | rfl | rfl | rfl
  · exact hfirst
  · exact hnew
  · exact hnew
  · exact .inl rfl

end Link

/-! ## Unlinking -/

theorem unlinkDentry_aliasOf : AliasOf (unlinkDentry s d parent p) q x ↔
    x ≠ .alias d ∧ AliasOf s q x := by
  constructor
  · rintro ⟨y, hy, rfl, hq⟩
    by_cases hyd : y = d
    · rw [hyd, unlinkDentry_self] at hq
      cases hq
    · rw [unlinkDentry_of_ne hyd] at hq
      exact ⟨fun heq => hyd (Node.alias.inj heq), y, hy, rfl, hq⟩
  · rintro ⟨hne, y, hy, rfl, hq⟩
    have hyd : y ≠ d := fun heq => hne (by rw [heq])
    exact ⟨y, hy, rfl, by rw [unlinkDentry_of_ne hyd, hq]⟩

/-- Unlinking a cached dentry keeps the lists. -/
theorem Kept.unlink (h : Kept s) (hd : d ∈ s.dentryList) (hp : (s.dentry d).dInode = some p) :
    Kept (unlinkDentry s d parent p) := by
  have hof : AliasOf s p (.alias d) := ⟨d, hd, rfl, hp⟩
  have hlist : AliasList s p := h p (.inr hof.linked)
  intro q hq
  by_cases hqp : q = p
  · obtain ⟨xs, hring, hxs⟩ := hlist
    rw [hqp]
    refine ⟨xs.erase (.alias d), hring.del ((hxs _).mpr hof), fun x => ?_⟩
    have hnodup : xs.Nodup := (List.nodup_cons.mp hring.nodup).2
    rw [unlinkDentry_aliasOf, hnodup.mem_erase_iff, hxs]
  · have hold : q ∈ s.vol.inodeList ∨ Linked s q := by
      refine hq.imp_right fun hlinked => ?_
      obtain ⟨x, hx⟩ := hlinked.aliasOf
      exact (unlinkDentry_aliasOf.mp hx).2.linked
    refine (h q hold).frame (fun x hx => ?_) fun x => ?_
    · -- list_del writes to the two neighbours, which are on the list of `p`
      obtain ⟨⟨hnext, -⟩, hprev, -⟩ := hlist.inverse (.inr hof)
      refine listDel_untouched ?_ ?_
      · rintro rfl
        exact hqp (hx.unique hprev)
      · rintro rfl
        exact hqp (hx.unique hnext)
    · rw [unlinkDentry_aliasOf]
      refine ⟨And.right, fun hx => ⟨?_, hx⟩⟩
      rintro rfl
      exact hqp (Member.unique (.inr hx) (.inr hof))

theorem Kept.putDentry (h : Kept s) (hd : d ∈ s.dentryList) (hput : putDentry s d env = .ok s') :
    Kept s' := by
  obtain ⟨-, parent, p, -, hp, ⟨-, rfl⟩ | ⟨-, -, vol, hvol, rfl⟩⟩ := putDentry_ok hput
  · exact h.unlink hd hp
  · have hcut : Kept (unlinkDentry s d parent p) := h.unlink hd hp
    have hlisted : ∀ q ∈ vol.inodeList, q ∈ s.vol.inodeList := by
      intro q hq
      obtain ⟨-, ⟨-, rfl⟩ | ⟨-, -, hlist, -⟩⟩ := putInode_ok hvol
      · exact hq
      · rw [hlist] at hq
        exact List.mem_of_mem_erase hq
    -- the dentry that leaves dentry_list is linked to nothing any more
    have hof : ∀ q x, AliasOf { unlinkDentry s d parent p with
          vol := vol
          dentryList := s.dentryList.erase d } q x ↔ AliasOf (unlinkDentry s d parent p) q x := by
      intro q x
      constructor
      · rintro ⟨y, hy, rfl, hq⟩
        exact ⟨y, List.mem_of_mem_erase hy, rfl, hq⟩
      · rintro ⟨y, hy, rfl, hq⟩
        have hyd : y ≠ d := by
          rintro rfl
          rw [unlinkDentry_self] at hq
          cases hq
        exact ⟨y, (List.mem_erase_of_ne hyd).mpr hy, rfl, hq⟩
    intro q hq
    have hold : q ∈ (unlinkDentry s d parent p).vol.inodeList ∨
        Linked (unlinkDentry s d parent p) q := by
      rcases hq with hq | hq
      · exact .inl (hlisted q hq)
      · obtain ⟨x, hx⟩ := hq.aliasOf
        exact .inr ((hof q x).mp hx).linked
    exact (hcut q hold).frame (fun x _ => ⟨rfl, rfl⟩) (hof q)

/-! ## The calls -/

section Calls

variable {inum mode : Nat} {dname : QStr} {vol : Volume} {r : Option DentryPtr}

/-- Listing inodes whose lists are well formed already. -/
theorem Kept.list (h : Kept s) (hlist : ∀ q ∈ vol.inodeList, q ∈ s.vol.inodeList ∨ AliasList s q) :
    Kept { s with vol := vol } := by
  intro q hq
  have hold : AliasList s q := by
    rcases hq with hq | hq
    · exact (hlist q hq).elim (fun hmem => h q (.inl hmem)) id
    · exact h q (.inr hq)
  exact hold.same rfl rfl rfl

/-- get_inode finds the inode on the list, or lists the object it gets. -/
theorem getInode_lists (hget : getInode s.vol inum (env.inodeAt s.vol.inodeList) = .ok (p, vol)) :
    (findInode s.vol inum ≠ none ∧ p ∈ s.vol.inodeList ∧ vol.inodeList = s.vol.inodeList) ∨
      findInode s.vol inum = none ∧ p = nextInode s env ∧
        vol.inodeList = p :: s.vol.inodeList := by
  obtain ⟨hfind, rfl⟩ | ⟨hfind, rfl, -, inode, -, rfl⟩ := getInode_ok hget
  · exact .inl ⟨by rw [hfind]; exact Option.some_ne_none p, (findInode_some hfind).1, rfl⟩
  · exact .inr ⟨hfind, rfl, rfl⟩

theorem Kept.getInode (h : Kept s) (hready : Ready s (.getInode inum env))
    (hget : getInode s.vol inum (env.inodeAt s.vol.inodeList) = .ok (p, vol)) :
    Kept { s with vol := vol } := by
  obtain ⟨-, -, hlist⟩ | ⟨hmiss, rfl, hlist⟩ := getInode_lists hget
  · refine h.list fun q hq => ?_
    rw [hlist] at hq
    exact .inl hq
  · refine h.list fun q hq => ?_
    rw [hlist] at hq
    rcases List.mem_cons.mp hq with rfl | hq
    · refine .inr ?_
      by_cases hlinked : Linked s (nextInode s env)
      · exact h _ (.inr hlinked)
      · exact .of_selfLinked ((hready hmiss).resolve_left hlinked) hlinked
    · exact .inl hq

theorem getInode_breaks (hready : ¬Ready s (.getInode inum env))
    (hget : getInode s.vol inum (env.inodeAt s.vol.inodeList) = .ok (p, vol)) :
    ¬WellFormed { s with vol := vol } := by
  simp only [Ready, Classical.not_imp, not_or] at hready
  obtain ⟨hmiss, hnone, hself⟩ := hready
  obtain ⟨hhit, -⟩ | ⟨-, rfl, hlist⟩ := getInode_lists hget
  · exact absurd hmiss hhit
  · intro hwell
    have hafter : AliasList { s with vol := vol } (nextInode s env) := by
      apply hwell
      show nextInode s env ∈ vol.inodeList
      rw [hlist]
      exact List.mem_cons_self ..
    exact hself (hafter.selfLinked hnone)

theorem Kept.createInode (h : Kept s) (hready : Ready s (.createInode mode env))
    (hnew : newInodeOf s mode env = .ok (p, s')) : Kept s' := by
  obtain ⟨vol, hcreate, rfl⟩ := newInodeOf_ok hnew
  obtain ⟨rfl, -, n, disk, -, -, -, -, hlist⟩ := createInode_ok hcreate
  intro q hq
  by_cases hqp : q = nextInode s env
  · rw [hqp]
    exact .of_selfLinked (selfLinked_initListHead ..) hready
  · have hold : q ∈ s.vol.inodeList ∨ Linked s q := by
      refine hq.imp_left fun hmem => ?_
      change q ∈ vol.inodeList at hmem
      rw [hlist] at hmem
      exact (List.mem_cons.mp hmem).resolve_left hqp
    refine (h q hold).frame (fun x hx => initListHead_untouched ?_) fun _ => Iff.rfl
    rintro rfl
    exact hqp (hx.unique (.inl rfl))

theorem createInode_breaks (hready : ¬Ready s (.createInode mode env))
    (hnew : newInodeOf s mode env = .ok (p, s')) : ¬WellFormed s' := by
  obtain ⟨vol, hcreate, rfl⟩ := newInodeOf_ok hnew
  obtain ⟨rfl, -, n, disk, -, -, -, -, hlist⟩ := createInode_ok hcreate
  intro hwell
  have hlinked : Linked s (nextInode s env) := not_not.mp hready
  have hmem : nextInode s env ∈ vol.inodeList := by
    rw [hlist]
    exact List.mem_cons_self ..
  have hafter := hwell (nextInode s env) hmem
  exact hafter.not_linked (selfLinked_initListHead ..).1 hlinked

/-- get_dentry links a dentry it reads in, and nothing else. -/
theorem getDentry_links (hget : getDentry s parent dname env = .ok (r, s')) :
    (s'.links = s.links ∧ s'.dentryList = s.dentryList ∧ s'.vol = s.vol ∧
        (∀ y, (s'.dentry y).dInode = (s.dentry y).dInode) ∧ ¬ReadsIn s parent dname env) ∨
      ∃ d p vol dName, d ∉ s.dentryList ∧ s' = addDentry { s with vol := vol } d parent dName p ∧
        ((p ∈ s.vol.inodeList ∧ vol.inodeList = s.vol.inodeList ∧ ¬ReadsIn s parent dname env) ∨
          ReadsIn s parent dname env ∧ p = nextInode s env ∧
            vol.inodeList = p :: s.vol.inodeList) := by
  obtain ⟨dir, hdir, ⟨d, hfind, -, rfl⟩ | ⟨hnone, pos, inum, hlook, hcases⟩⟩ := getDentry_ok hget
  · refine .inl ⟨rfl, rfl, rfl, fun y => ?_, ?_⟩
    · rw [addRef_dentry]
    · rintro ⟨-, -, -, -, hmiss, -⟩
      rw [hfind] at hmiss
      cases hmiss
  have hreads : ReadsIn s parent dname env ↔ 0 ≤ pos ∧ findInode s.vol inum = none := by
    constructor
    · rintro ⟨dir', pos', inum', hdir', -, hlook', hpos, hmiss⟩
      obtain rfl : dir = dir' := Option.some.inj (hdir.symm.trans hdir')
      rw [hlook] at hlook'
      cases hlook'
      exact ⟨hpos, hmiss⟩
    · rintro ⟨hpos, hmiss⟩
      exact ⟨dir, pos, inum, hdir, hnone, hlook, hpos, hmiss⟩
  obtain ⟨hneg, -, rfl⟩ | ⟨hpos, p, vol, d, dName, hinode, -, hfresh, -, -, rfl⟩ := hcases
  · refine .inl ⟨rfl, rfl, rfl, fun _ => rfl, ?_⟩
    rw [hreads]
    exact fun h => absurd h.1 (not_le.mpr hneg)
  · refine .inr ⟨d, p, vol, dName, hfresh, rfl, ?_⟩
    rw [hreads]
    obtain ⟨hhit, hp, hlist⟩ | ⟨hmiss, hp, hlist⟩ := getInode_lists hinode
    · exact .inl ⟨hp, hlist, fun h => hhit h.2⟩
    · exact .inr ⟨⟨hpos, hmiss⟩, hp, hlist⟩

theorem Kept.getDentry (h : Kept s) (hparent : parent ∈ s.dentryList)
    (hready : Ready s (.getDentry parent dname env))
    (hget : getDentry s parent dname env = .ok (r, s')) : Kept s' := by
  obtain ⟨hlinks, hlist, hvol, hinode, -⟩ | ⟨d, p, vol, dName, hfresh, rfl, hcases⟩ :=
    getDentry_links hget
  · have hof : ∀ q x, AliasOf s' q x ↔ AliasOf s q x := by
      intro q x
      simp only [AliasOf, hlist, hinode]
    intro q hq
    have hold : q ∈ s.vol.inodeList ∨ Linked s q := by
      rw [hvol] at hq
      refine hq.imp_right fun hlinked => ?_
      obtain ⟨x, hx⟩ := hlinked.aliasOf
      exact ((hof q x).mp hx).linked
    refine (h q hold).frame (fun x _ => ?_) (hof q)
    rw [hlinks]
    exact ⟨rfl, rfl⟩
  have hd : d ≠ parent := fun heq => hfresh (heq ▸ hparent)
  have hothers : ∀ q, q ≠ p → q ∈ vol.inodeList ∨ Linked s q → AliasList s q := by
    intro q hqp hq
    refine h q (hq.imp_left fun hmem => ?_)
    obtain ⟨-, hlist, -⟩ | ⟨-, -, hlist⟩ := hcases
    · exact hlist ▸ hmem
    · rw [hlist] at hmem
      exact (List.mem_cons.mp hmem).resolve_left hqp
  have hp : AliasList s p ∨ listEmpty s.links (.head p) ∧ ¬Linked s p := by
    obtain ⟨hp, -, -⟩ | ⟨hreads, rfl, -⟩ := hcases
    · exact .inl (h p (.inl hp))
    · by_cases hlinked : Linked s (nextInode s env)
      · exact .inl (h _ (.inr hlinked))
      · exact .inr ⟨(hready hreads).resolve_left hlinked, hlinked⟩
  have hvol : ∀ q, AliasList s q → AliasList { s with vol := vol } q :=
    fun q hq => hq.same rfl rfl rfl
  exact Kept.link (fun q hqp hq => hvol q (hothers q hqp hq)) (hp.imp_left (hvol p)) hd hfresh

theorem getDentry_breaks (hparent : parent ∈ s.dentryList)
    (hready : ¬Ready s (.getDentry parent dname env))
    (hget : getDentry s parent dname env = .ok (r, s')) : ¬WellFormed s' := by
  simp only [Ready, Classical.not_imp, not_or] at hready
  obtain ⟨hreads, hnone, hempty⟩ := hready
  obtain ⟨-, -, -, -, hnot⟩ | ⟨d, p, vol, dName, hfresh, rfl, ⟨-, -, hnot⟩ | ⟨-, rfl, hlist⟩⟩ :=
    getDentry_links hget
  · exact absurd hreads hnot
  · exact absurd hreads hnot
  · have hd : d ≠ parent := fun heq => hfresh (heq ▸ hparent)
    intro hwell
    have hmem : nextInode s env ∈ vol.inodeList := by
      rw [hlist]
      exact List.mem_cons_self ..
    have hafter := hwell (nextInode s env) hmem
    exact hempty (listEmpty_of_link hafter hd hfresh hnone)

/-- create_dentry finds the name, or links the new dentry to the inode it is given. -/
theorem createDentry_links {inode : InodePtr} (hparent : parent ∈ s.dentryList)
    (hcreate : createDentry s parent dname inode env = .ok (r, s')) :
    (∃ r, getDentry s parent dname env = .ok (r, s')) ∨
      ¬ReadsIn s parent dname env ∧ ∃ d vol dName, d ∉ s.dentryList ∧ d ≠ parent ∧
        vol.inodeList = s.vol.inodeList ∧
        s'.links = (addDentry { s with vol := vol } d parent dName inode).links ∧
        s'.dentryList = (addDentry { s with vol := vol } d parent dName inode).dentryList ∧
        s'.dentry = (addDentry { s with vol := vol } d parent dName inode).dentry ∧
        s'.vol.inodeList = s.vol.inodeList := by
  obtain ⟨d, hget, -⟩ | ⟨hget, dir, name, ret, disk, dirInode, d, dName, -, -, -, -, hfresh, -, -,
    hcount⟩ := createDentry_ok hcreate
  · exact .inl ⟨_, hget⟩
  · obtain ⟨disk', -, rfl⟩ := countLink_ok hcount
    have hd : d ≠ parent := fun heq => hfresh (heq ▸ hparent)
    refine .inr ⟨?_, d, { s.vol.setInode dir dirInode with disk := disk }, dName, hfresh, hd,
      rfl, rfl, rfl, rfl, rfl⟩
    obtain ⟨-, -, -, -, hnot⟩ | ⟨d', p, vol, dName', hfresh', hs, -⟩ := getDentry_links hget
    · exact hnot
    · have hmem : d' ∈ s.dentryList := by
        rw [hs]
        exact List.mem_cons_self ..
      exact absurd hmem hfresh'

theorem Kept.createDentry {inode : InodePtr} (h : Kept s) (hparent : parent ∈ s.dentryList)
    (hinode : inode ∈ s.vol.inodeList) (hready : Ready s (.createDentry parent dname inode env))
    (hcreate : createDentry s parent dname inode env = .ok (r, s')) : Kept s' := by
  obtain ⟨r', hget⟩ | ⟨-, d, vol, dName, hfresh, hd, hlist, hlinks, hdlist, hdentry, hinodes⟩ :=
    createDentry_links hparent hcreate
  · exact h.getDentry hparent hready hget
  · have hvol : Kept { s with vol := vol } := by
      refine h.list fun q hq => ?_
      rw [hlist] at hq
      exact .inl hq
    have hadd : Kept (addDentry { s with vol := vol } d parent dName inode) :=
      Kept.link (fun q _ hq => hvol q hq) (.inl (hvol inode (.inl (hlist ▸ hinode)))) hd hfresh
    intro q hq
    have hq' : q ∈ (addDentry { s with vol := vol } d parent dName inode).vol.inodeList ∨
        Linked (addDentry { s with vol := vol } d parent dName inode) q := by
      rw [Linked, hdlist, hdentry, hinodes] at hq
      exact hq.imp_left fun hmem => hlist ▸ hmem
    exact (hadd q hq').same hlinks hdlist hdentry

theorem createDentry_breaks {inode : InodePtr} (hparent : parent ∈ s.dentryList)
    (hready : ¬Ready s (.createDentry parent dname inode env))
    (hcreate : createDentry s parent dname inode env = .ok (r, s')) : ¬WellFormed s' := by
  obtain ⟨r', hget⟩ | ⟨hnot, -⟩ := createDentry_links hparent hcreate
  · exact getDentry_breaks hparent hready hget
  · exact absurd (fun hreads => absurd hreads hnot) hready

end Calls

/-! ## Runs -/

theorem Kept.step {a : Call} (h : Kept s) (hready : Ready s a) (st : Step s a s') : Kept s' := by
  cases st with
  | getInode hget => exact h.getInode hready hget
  | createInode hnew => exact h.createInode hready hnew
  | createDentry hparent hinode hcreate => exact h.createDentry hparent hinode hready hcreate
  | getDentry hparent hget => exact h.getDentry hparent hready hget
  | putDentry hd hput => exact h.putDentry hd hput

theorem not_ready_breaks {a : Call} (hready : ¬Ready s a) (st : Step s a s') : ¬WellFormed s' := by
  cases st with
  | getInode hget => exact getInode_breaks hready hget
  | createInode hnew => exact createInode_breaks hready hnew
  | createDentry hparent hinode hcreate => exact createDentry_breaks hparent hready hcreate
  | getDentry hparent hget => exact getDentry_breaks hparent hready hget
  | putDentry hd hput => exact absurd trivial hready

/-- The only dentry a call can add is the one it links. -/
theorem addDentry_within {vol : Volume} {dName : DName} (hfresh : d ∉ s.dentryList)
    (hd : d ≠ parent) (hlinks : s'.links = (addDentry { s with vol := vol } d parent dName p).links)
    (hlist : s'.dentryList = (addDentry { s with vol := vol } d parent dName p).dentryList)
    (hdentry : s'.dentry = (addDentry { s with vol := vol } d parent dName p).dentry)
    (h : AliasList s' p) {a : Call} : LinksWithin s a s' := by
  intro y q hy hy' hq
  rw [hlist] at hy'
  obtain rfl : y = d := (List.mem_cons.mp hy').resolve_right hy
  rw [hdentry, addDentry_self hd] at hq
  obtain rfl : p = q := Option.some.inj hq
  refine ⟨hlinks, fun x hx => ?_⟩
  have hsame : AliasList (addDentry { s with vol := vol } y parent dName p) p :=
    h.same hlinks.symm hlist.symm hdentry.symm
  rw [Member, AliasOf, hlist, hdentry]
  exact link_within hsame hd hfresh x hx

/-- A dentry_list that has not grown. -/
theorem LinksWithin.of_subset {a : Call} (h : ∀ y ∈ s'.dentryList, y ∈ s.dentryList) :
    LinksWithin s a s' := fun y _ hy hy' _ => absurd (h y hy') hy

theorem LinksWithin.getDentry {a : Call} {dname : QStr} {r : Option DentryPtr}
    (hparent : parent ∈ s.dentryList) (hget : getDentry s parent dname env = .ok (r, s'))
    (h : Kept s') : LinksWithin s a s' := by
  obtain ⟨-, hlist, -⟩ | ⟨d, p, vol, dName, hfresh, rfl, -⟩ := getDentry_links hget
  · exact .of_subset fun y hy => hlist ▸ hy
  · have hd : d ≠ parent := fun heq => hfresh (heq ▸ hparent)
    refine addDentry_within hfresh hd rfl rfl rfl (h p (.inr ⟨d, List.mem_cons_self .., ?_⟩))
    rw [addDentry_self hd]

theorem LinksWithin.step {a : Call} (h : Kept s') (st : Step s a s') : LinksWithin s a s' := by
  cases st with
  | getInode hget => exact .of_subset fun y hy => hy
  | createInode hnew =>
    obtain ⟨vol, -, rfl⟩ := newInodeOf_ok hnew
    exact .of_subset fun y hy => hy
  | createDentry hparent hinode hcreate =>
    obtain ⟨r', hget⟩ | ⟨-, d, vol, dName, hfresh, hd, -, hlinks, hlist, hdentry, hinodes⟩ :=
      createDentry_links hparent hcreate
    · exact .getDentry hparent hget h
    · exact addDentry_within hfresh hd hlinks hlist hdentry (h _ (.inl (hinodes ▸ hinode)))
  | getDentry hparent hget => exact .getDentry hparent hget h
  | putDentry hd hput =>
    obtain ⟨-, parent, p, -, -, ⟨-, rfl⟩ | ⟨-, -, vol, -, rfl⟩⟩ := putDentry_ok hput
    · exact .of_subset fun y hy => hy
    · exact .of_subset fun y hy => List.mem_of_mem_erase hy

theorem Kept.fsInit {memory : FsState} {disk : Disk} {ptrs : Pointers}
    (hinit : fsInit memory disk ptrs = .ok s) : Kept s := by
  obtain ⟨hlist, hroot, hinodes, -⟩ := fsInit_ok hinit
  simp only [DentryCache.fsInit, bind_eq_ok, access_eq_ok, pure_eq_ok, Except.ok.injEq] at hinit
  obtain ⟨disk', -, _, -, inode, -, hs⟩ := hinit
  have hlinks : s.links = listAdd (initListHead (initListHead memory.links (.head .root))
      (.alias .root)) (.alias .root) (.head .root) := by
    rw [← hs]
    rfl
  have hof : ∀ p x, AliasOf s p x ↔ x = .alias .root ∧ p = .root := by
    intro p x
    simp only [AliasOf, hlist, List.mem_singleton, exists_eq_left, hroot, Option.some.injEq]
    rw [eq_comm (a := InodePtr.root)]
  have hne : Node.head .root ≠ .alias .root := by decide
  have hempty : listEmpty (initListHead (initListHead memory.links (.head .root)) (.alias .root))
      (Node.head .root) := by
    have hkept := initListHead_untouched (l := initListHead memory.links (.head .root)) hne
    exact hkept.1.trans (selfLinked_initListHead ..).1
  have hself : AliasList s .root := by
    refine ⟨[.alias .root], ?_, fun x => ?_⟩
    · rw [hlinks]
      exact isList_add_empty hempty hne.symm
    · rw [hof, List.mem_singleton, and_iff_left rfl]
  rintro p (hp | hp)
  · rw [hinodes] at hp
    exact List.mem_singleton.mp hp ▸ hself
  · obtain ⟨x, hx⟩ := hp.aliasOf
    exact ((hof p x).mp hx).2 ▸ hself

/-- Along every run from fs_init the alias lists are well formed, and linking stays within them,
exactly as long as every inode object that is handed out is ready. -/
theorem alias_lists_iff {memory : FsState} {disk : Disk} {ptrs : Pointers}
    (hinit : fsInit memory disk ptrs = .ok s) {tr : List (Call × FsState)}
    (hrun : Exec Step s tr) :
    (Always WellFormed s tr ∧ Stepwise LinksWithin s tr) ↔ Guarded Ready s tr := by
  have hstart : Kept s := .fsInit hinit
  constructor
  · rintro ⟨hwell, -⟩
    exact (hrun.always_iff_guarded (fun _ => Kept.wellFormed)
      (fun _ _ _ h hready st => h.step hready st)
      (fun _ _ _ _ hready st => not_ready_breaks hready st) hstart).mp hwell
  · intro hready
    have hkept : Always Kept s tr :=
      hrun.always_of_guarded (fun _ _ _ h hready st => h.step hready st) hstart hready
    have hwithin : ∀ t a t', Kept t → Kept t' → Step t a t' → LinksWithin t a t' := by
      intro t a t' _ h st
      exact .step h st
    exact ⟨hkept.imp fun _ => Kept.wellFormed, hrun.stepwise hwithin hkept⟩

/-! ## A file that is created, and a file of an earlier boot -/

/-- The quick string of `a`. -/
def quickA : QStr := ⟨1, [97]⟩

/-- `/a` is created on a fresh disk and looked up. -/
def createA : Kernel (FsState × InodePtr × FsState × FsState × FsState) := do
  let s ← bootBlank
  let (p, s₁) ← newInodeOf s 0 plainEnv
  let (_, s₂) ← createDentry s₁ .root quickA p plainEnv
  let (_, s₃) ← getDentry s₂ .root quickA plainEnv
  pure (s, p, s₁, s₂, s₃)

def createRun (p : InodePtr) (s₁ s₂ s₃ : FsState) : List (Call × FsState) :=
  [(.createInode 0 plainEnv, s₁), (.createDentry .root quickA p plainEnv, s₂),
    (.getDentry .root quickA plainEnv, s₃)]

/-- The lookup of a name that the directory does not have. -/
def absent (s : FsState) (dir : InodePtr) (dname : QStr) : Bool :=
  match lookupDisk s dir dname plainEnv with
  | .ok (pos, _) => decide (pos < 0)
  | .error _ => false

/-- The first lookup goes to the disk and finds nothing, the second ends in the cache. -/
structure Fresh (s : FsState) (p : InodePtr) (s₁ s₂ : FsState) : Prop where
  unlinked : ¬Linked s (nextInode s plainEnv)
  rootCached : .root ∈ s₁.dentryList
  listed : p ∈ s₁.vol.inodeList
  rootInode : (s₁.dentry .root).dInode = some .root
  absent : absent s₁ .root quickA = true
  kept : .root ∈ s₂.dentryList
  found : findDentry s₂ .root quickA ≠ none

theorem createA_run : ∃ s p s₁ s₂ s₃, createA = .ok (s, p, s₁, s₂, s₃) ∧ Fresh s p s₁ s₂ := by
  have hrun : (match createA with
      | .ok (s, p, s₁, s₂, _) => decide ((∀ d ∈ s.dentryList,
            (s.dentry d).dInode ≠ some (nextInode s plainEnv)) ∧
          .root ∈ s₁.dentryList ∧ p ∈ s₁.vol.inodeList ∧ (s₁.dentry .root).dInode = some .root ∧
          absent s₁ .root quickA = true ∧ .root ∈ s₂.dentryList ∧
          findDentry s₂ .root quickA ≠ none)
      | .error _ => false) = true := by decide +kernel
  split at hrun
  swap
  · cases hrun
  rename_i s p s₁ s₂ s₃ hcreate
  obtain ⟨hunlinked, hroot, hlisted, hinode, habsent, hkept, hfound⟩ := of_decide_eq_true hrun
  exact ⟨s, p, s₁, s₂, s₃, hcreate, fun ⟨d, hd, hlinked⟩ => hunlinked d hd hlinked, hroot,
    hlisted, hinode, habsent, hkept, hfound⟩

/-- What creating `/a` leaves on the disk. -/
def diskWithA : Kernel Disk := do
  let s ← bootBlank
  let (p, s) ← newInodeOf s 0 plainEnv
  let (_, s) ← createDentry s .root quickA p plainEnv
  pure s.vol.disk

/-- The machine starts again from that disk and looks `a` up. -/
def lookupA : Kernel (FsState × Option DentryPtr × FsState) := do
  let disk ← diskWithA
  let s ← fsInit blankMemory disk fun _ => 0
  let (r, s') ← getDentry s .root quickA plainEnv
  pure (s, r, s')

/-- The dentry of `a` hangs on an inode object whose list was never initialised. -/
structure Stray (s s' : FsState) : Prop where
  cached : .root ∈ s.dentryList
  fresh : .obj 0 ∉ s.dentryList
  added : .obj 0 ∈ s'.dentryList
  inode : (s'.dentry (.obj 0)).dInode = some (.obj 0)
  listed : .obj 0 ∈ s'.vol.inodeList
  before : s.links.next (.head (.obj 0)) = .wild 0
  head : s'.links.next (.head (.obj 0)) = .alias (.obj 0)
  stray : s'.links.next (.alias (.obj 0)) = .wild 0

theorem lookupA_run : ∃ s r s', lookupA = .ok (s, r, s') ∧ Stray s s' := by
  have hrun : (match lookupA with
      | .ok (s, _, s') => decide (.root ∈ s.dentryList ∧ .obj 0 ∉ s.dentryList ∧
          .obj 0 ∈ s'.dentryList ∧ (s'.dentry (.obj 0)).dInode = some (.obj 0) ∧
          .obj 0 ∈ s'.vol.inodeList ∧ s.links.next (.head (.obj 0)) = .wild 0 ∧
          s'.links.next (.head (.obj 0)) = .alias (.obj 0) ∧
          s'.links.next (.alias (.obj 0)) = .wild 0)
      | .error _ => false) = true := by decide +kernel
  split at hrun
  swap
  · cases hrun
  rename_i s r s' hlook
  obtain ⟨hcached, hfresh, hadded, hinode, hlisted, hbefore, hhead, hstray⟩ :=
    of_decide_eq_true hrun
  exact ⟨s, r, s', hlook, hcached, hfresh, hadded, hinode, hlisted, hbefore, hhead, hstray⟩

theorem lookupA_ok {s s' : FsState} {r : Option DentryPtr} (h : lookupA = .ok (s, r, s')) :
    ∃ disk, diskWithA = .ok disk ∧ fsInit blankMemory disk (fun _ => 0) = .ok s ∧
      getDentry s .root quickA plainEnv = .ok (r, s') := by
  simp only [lookupA, bind_eq_ok, pure_eq_ok, Except.ok.injEq, Prod.mk.injEq] at h
  obtain ⟨disk, hdisk, s₀, hinit, ⟨r₀, s₁⟩, hget, rfl, rfl, rfl⟩ := h
  exact ⟨disk, hdisk, hinit, hget⟩

theorem absent_not_readsIn {s : FsState} (hinode : (s.dentry .root).dInode = some .root)
    (habsent : absent s .root quickA = true) : ¬ReadsIn s .root quickA plainEnv := by
  rintro ⟨dir, pos, inum, hdir, -, hlook, hpos, -⟩
  obtain rfl := Option.some.inj (hinode.symm.trans hdir)
  rw [absent, hlook] at habsent
  exact absurd hpos (not_le.mpr (of_decide_eq_true habsent))

/-- Creating `/a` and looking it up keeps every alias list. -/
theorem alias_lists_created : ∃ s p s₁ s₂ s₃, Exec Step s (createRun p s₁ s₂ s₃) ∧
    Always WellFormed s (createRun p s₁ s₂ s₃) ∧
    Stepwise LinksWithin s (createRun p s₁ s₂ s₃) := by
  obtain ⟨s, p, s₁, s₂, s₃, hcreate, h⟩ := createA_run
  simp only [createA, bind_eq_ok, pure_eq_ok, Except.ok.injEq, Prod.mk.injEq] at hcreate
  obtain ⟨s, hboot, ⟨p, s₁⟩, hnew, ⟨r, s₂⟩, hcreated, ⟨r', s₃⟩, hget, rfl, rfl, rfl, rfl, rfl⟩ :=
    hcreate
  have hrun : Exec Step s (createRun p s₁ s₂ s₃) :=
    .cons (.createInode hnew) (.cons (.createDentry h.rootCached h.listed hcreated)
      (.cons (.getDentry h.kept hget) (.nil s₃)))
  have hready : Guarded Ready s (createRun p s₁ s₂ s₃) := by
    refine ⟨h.unlinked, ?_, ?_, trivial⟩
    · exact fun hreads => absurd hreads (absent_not_readsIn h.rootInode h.absent)
    · rintro ⟨_, _, _, -, hnone, -⟩
      exact absurd hnone h.found
  obtain ⟨hwell, hwithin⟩ := (alias_lists_iff hboot hrun).mpr hready
  exact ⟨s, p, s₁, s₂, s₃, hrun, hwell, hwithin⟩

/-- Looking up a file of an earlier boot links its dentry through a NULL pointer. -/
theorem lookup_links_through_null : ∃ disk s s' a,
    fsInit blankMemory disk (fun _ => 0) = .ok s ∧ Step s a s' ∧ ¬WellFormed s' ∧
      ¬LinksWithin s a s' := by
  obtain ⟨s, r, s', hlook, h⟩ := lookupA_run
  obtain ⟨disk, -, hinit, hget⟩ := lookupA_ok hlook
  have hnot : ¬Member s' (.obj 0) (.wild 0) := by
    rintro (heq | ⟨d, -, heq, -⟩)
    · cases heq
    · cases heq
  refine ⟨disk, s, s', .getDentry .root quickA plainEnv, hinit, .getDentry h.cached hget, ?_, ?_⟩
  · intro hwell
    have hlist := hwell (.obj 0) h.listed
    have hfirst := (hlist.inverse (.inl rfl)).1.1
    rw [h.head] at hfirst
    have hsecond := (hlist.inverse hfirst).1.1
    rw [h.stray] at hsecond
    exact hnot hsecond
  · intro hwithin
    obtain ⟨-, hwrites⟩ := hwithin (.obj 0) (.obj 0) h.fresh h.added h.inode
    have hfirst := hwrites (s.links.next (.head (.obj 0))) (List.mem_cons_self ..)
    rw [h.before] at hfirst
    exact hnot hfirst

end RxdOs.Fs.AliasLists
