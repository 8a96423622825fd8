/- RxdOs/Fs/OpenSafety
   source: fs/fs.c (get_dentry, put_dentry, sys_open, sys_close, get_inode)
   digest: Open descriptors keep their dentry and their inode over all runs of sys_open and
   sys_close in which no dentry is closed under another descriptor. -/

import RxdOs.Fs.CacheReach

set_option autoImplicit false
set_option relaxedAutoImplicit false

namespace RxdOs.Fs.OpenSafety

open RxdOs.Base.Assert RxdOs.Lib.Execution RxdOs.Fs.Bitmap RxdOs.Fs.Layout RxdOs.Fs.InodeCache
  RxdOs.Fs.Name RxdOs.Fs.Dir RxdOs.Fs.DentryCache RxdOs.Fs.Open RxdOs.Fs.CacheReach

/-- The caches, the descriptors that are open, and the inode number each was opened with. -/
structure Session where
  fs : FsState
  opened : Finset (Fin nrMaxOpen)
  inumAt : Fin nrMaxOpen → Option Nat

inductive Event
  | opened (name : CStr) (flags : UInt32) (env : Env) (r : Option (Fin nrMaxOpen))
  | closed (fd : Fin nrMaxOpen) (env : Env)

/-- The inode number behind a descriptor. -/
def inumOf (s : FsState) (fd : Fin nrMaxOpen) : Option Nat := do
  let d ← dentryOf s fd
  let p ← (s.dentry d).dInode
  pure (s.vol.inode p).iInum

/-- A sys_open of a name in the root directory, or a sys_close of an open descriptor. -/
inductive Step : Session → Event → Session → Prop
  | opened {s : Session} {name : CStr} {flags : UInt32} {env : Env} {fd : Fin nrMaxOpen}
      {fs : FsState} : IsName name → sysOpen s.fs (rootPath name) flags env = .ok (some fd, fs) →
      Step s (.opened name flags env (some fd))
        ⟨fs, insert fd s.opened, Function.update s.inumAt fd (inumOf fs fd)⟩
  | failed {s : Session} {name : CStr} {flags : UInt32} {env : Env} {fs : FsState} :
      IsName name → sysOpen s.fs (rootPath name) flags env = .ok (none, fs) →
      Step s (.opened name flags env none) { s with fs := fs }
  | closed {s : Session} {fd : Fin nrMaxOpen} {env : Env} {fs : FsState} : fd ∈ s.opened →
      sysClose s.fs fd env = .ok fs →
      Step s (.closed fd env) { s with fs := fs, opened := s.opened.erase fd }

/-- Every open descriptor has a linked dentry with a live inode of the number it was opened with. -/
def Usable (s : Session) : Prop := ∀ fd ∈ s.opened, ∃ d p, dentryOf s.fs fd = some d ∧
  d ∈ s.fs.dentryList ∧ (s.fs.dentry d).dParent ≠ none ∧ (s.fs.dentry d).dInode = some p ∧
  p ∈ s.fs.vol.inodeList ∧ 0 < (s.fs.vol.inode p).iRefcnt ∧
  s.inumAt fd = some (s.fs.vol.inode p).iInum

/-- The name is not cached, the directory has it, and its inode is not cached either. -/
def ReadsInode (s : FsState) (name : CStr) (env : Env) : Prop :=
  findDentry s .root ⟨name.length, name⟩ = none ∧ ∃ pos inum, 0 ≤ pos ∧
    lookupDisk s .root ⟨name.length, name⟩ env = .ok (pos, inum) ∧ findInode s.vol inum = none

/-- The dentry of a descriptor that is closed has no other descriptor, and the memory that
get_inode reads an inode into holds no i_refcnt below -1. -/
def Safe (s : Session) : Event → Prop
  | .opened name _ env (some _) => ReadsInode s.fs name env →
      -1 ≤ (s.fs.vol.inode (.obj (env.inodeAt s.fs.vol.inodeList))).iRefcnt
  | .opened _ _ _ none => True
  | .closed fd _ => ∀ fd' ∈ s.opened, dentryOf s.fs fd' = dentryOf s.fs fd → fd' = fd

/-! ## The caches between calls -/

/-- The dentries below root_dentry that are linked to `p`. -/
def links (s : FsState) (p : InodePtr) : Finset DentryPtr :=
  (s.dentryList.toFinset.erase .root).filter fun d => (s.dentry d).dInode = some p

/-- Every dentry hangs below root_dentry and on a cached inode, which has two references for it;
one of all these may be missing. -/
structure Tree (s : FsState) : Prop where
  rooted : Rooted s
  inodes : s.vol.inodeList.Nodup
  child : ∀ d ∈ s.dentryList, d ≠ .root → (s.dentry d).dParent = some .root ∧
    ∃ p ∈ s.vol.inodeList, (s.dentry d).dInode = some p
  linked : ∀ p ∈ s.vol.inodeList, 2 * ((links s p).card : Int) ≤ (s.vol.inode p).iRefcnt + 1

variable {s s' : FsState} {env : Env} {d : DentryPtr} {p : InodePtr}

theorem mem_links {x : DentryPtr} :
    x ∈ links s p ↔ x ∈ s.dentryList ∧ x ≠ .root ∧ (s.dentry x).dInode = some p := by
  rw [links, Finset.mem_filter, Finset.mem_erase, List.mem_toFinset]
  tauto

theorem links_congr (hlist : s'.dentryList = s.dentryList)
    (hinode : ∀ x, (s'.dentry x).dInode = (s.dentry x).dInode) (q : InodePtr) :
    links s' q = links s q := by
  ext x
  rw [mem_links, mem_links, hlist, hinode]

/-- Only lists, links and inodes matter. -/
theorem Tree.congr (h : Tree s) (hroot : Rooted s') (hlist : s'.dentryList = s.dentryList)
    (hdentry : ∀ x, (s'.dentry x).dParent = (s.dentry x).dParent ∧
      (s'.dentry x).dInode = (s.dentry x).dInode) (hvol : s'.vol = s.vol) : Tree s' := by
  refine ⟨hroot, hvol ▸ h.inodes, fun x hx hne => ?_, fun q hq => ?_⟩
  · rw [(hdentry x).1, (hdentry x).2, hvol]
    exact h.child x (hlist ▸ hx) hne
  · rw [links_congr hlist (fun x => (hdentry x).2), hvol]
    exact h.linked q (hvol ▸ hq)

theorem Tree.addRef (h : Tree s) (d : DentryPtr) (n : Int) : Tree (addRef s d n) := by
  refine h.congr (h.rooted.addRef d n) rfl (fun x => ?_) rfl
  rw [addRef_dentry]
  exact ⟨rfl, rfl⟩

theorem Tree.withSlot (h : Tree s) {f : Nat} (hfresh : f ∉ s.files) (slot : Fin nrMaxOpen)
    (flags : UInt32) : Tree (withSlot s slot f flags) :=
  h.congr (h.rooted.withSlot hfresh slot flags) rfl (fun _ => ⟨rfl, rfl⟩) rfl

/-! ## A dentry joins the cache -/

/-- A new dentry `d`, linked to the inode `p`, which counted `r` references before. -/
structure Joined (s s' : FsState) (d : DentryPtr) (p : InodePtr) (r : Int) : Prop where
  fresh : d ∉ s.dentryList
  list : s'.dentryList = d :: s.dentryList
  self : (s'.dentry d).dParent = some .root ∧ (s'.dentry d).dInode = some p ∧
    (s'.dentry d).dRefcnt = 2
  others : ∀ x, x ≠ d → (s'.dentry x).dParent = (s.dentry x).dParent ∧
    (s'.dentry x).dInode = (s.dentry x).dInode
  counts : ∀ x, x ≠ d → x ≠ .root → (s'.dentry x).dRefcnt = (s.dentry x).dRefcnt
  inode : (p ∈ s.vol.inodeList ∧ s'.vol.inodeList = s.vol.inodeList ∧
      r = (s.vol.inode p).iRefcnt ∧ (s'.vol.inode p).iInum = (s.vol.inode p).iInum) ∨
    p ∉ s.vol.inodeList ∧ s'.vol.inodeList = p :: s.vol.inodeList
  count : (s'.vol.inode p).iRefcnt = r + 2
  kept : ∀ q, q ≠ p → SameNode (s.vol.inode q) (s'.vol.inode q)

theorem Joined.mem_inodeList {r : Int} (h : Joined s s' d p r) : p ∈ s'.vol.inodeList ∧
    ∀ q ∈ s.vol.inodeList, q ∈ s'.vol.inodeList := by
  rcases h.inode with ⟨hp, hlist, -⟩ | ⟨-, hlist⟩
  · rw [hlist]
    exact ⟨hp, fun _ hq => hq⟩
  · rw [hlist]
    exact ⟨List.mem_cons_self .., fun _ hq => List.mem_cons_of_mem _ hq⟩

/-- The inodes that were cached keep their numbers. -/
theorem Joined.iInum {r : Int} (h : Joined s s' d p r) {q : InodePtr} (hq : q ∈ s.vol.inodeList) :
    (s'.vol.inode q).iInum = (s.vol.inode q).iInum := by
  by_cases hqp : q = p
  · subst hqp
    rcases h.inode with ⟨-, -, -, hsame⟩ | ⟨hnot, -⟩
    · exact hsame
    · exact absurd hq hnot
  · exact (h.kept q hqp).1

theorem Tree.join {r : Int} (h : Tree s) (hj : Joined s s' d p r) (hroot : Rooted s')
    (hr : p ∉ s.vol.inodeList → -1 ≤ r) : Tree s' := by
  obtain ⟨hp, hkeep⟩ := hj.mem_inodeList
  have hne : d ≠ .root := fun heq => hj.fresh (heq ▸ h.rooted.root)
  have hself : links s' p = insert d (links s p) := by
    ext x
    rw [Finset.mem_insert, mem_links, mem_links, hj.list, List.mem_cons]
    by_cases hx : x = d
    · subst hx
      simp [hne, hj.self.2.1]
    · rw [(hj.others x hx).2]
      tauto
  have hother : ∀ q, q ≠ p → links s' q = links s q := by
    intro q hq
    ext x
    rw [mem_links, mem_links, hj.list, List.mem_cons]
    by_cases hx : x = d
    · subst hx
      simp [hj.fresh, hj.self.2.1, Ne.symm hq]
    · rw [(hj.others x hx).2]
      tauto
  have hnew : d ∉ links s p := fun hd => hj.fresh (mem_links.mp hd).1
  refine ⟨hroot, ?_, fun x hx hxr => ?_, fun q hq => ?_⟩
  · rcases hj.inode with ⟨-, hlist, -⟩ | ⟨hnot, hlist⟩
    · exact hlist ▸ h.inodes
    · exact hlist ▸ List.nodup_cons.mpr ⟨hnot, h.inodes⟩
  · by_cases hxd : x = d
    · subst hxd
      exact ⟨hj.self.1, p, hp, hj.self.2.1⟩
    · rw [hj.list] at hx
      obtain ⟨hparent, q, hq, hlink⟩ := h.child x ((List.mem_cons.mp hx).resolve_left hxd) hxr
      rw [(hj.others x hxd).1, (hj.others x hxd).2]
      exact ⟨hparent, q, hkeep q hq, hlink⟩
  · by_cases hqp : q = p
    · subst hqp
      rw [hself, Finset.card_insert_of_notMem hnew, hj.count]
      push_cast
      rcases hj.inode with ⟨hmem, -, rfl, -⟩ | ⟨hnot, -⟩
      · have := h.linked q hmem
        omega
      · -- nothing can be linked to an inode that is not cached
        have hempty : links s q = ∅ := by
          rw [Finset.eq_empty_iff_forall_notMem]
          intro x hx
          obtain ⟨hxl, hxr, hxq⟩ := mem_links.mp hx
          obtain ⟨-, q', hq', hlink⟩ := h.child x hxl hxr
          obtain rfl : q = q' := Option.some.inj (hxq.symm.trans hlink)
          exact hnot hq'
        have := hr hnot
        rw [hempty, Finset.card_empty]
        push_cast
        omega
    · rw [hother q hqp, (hj.kept q hqp).2]
      refine h.linked q ?_
      rcases hj.inode with ⟨-, hlist, -⟩ | ⟨-, hlist⟩
      · exact hlist ▸ hq
      · rw [hlist] at hq
        exact (List.mem_cons.mp hq).resolve_left hqp

theorem joined_addDentry {vol : Volume} {dName : DName} {r : Int} (hroot : .root ∈ s.dentryList)
    (hd : d ∉ s.dentryList)
    (hinode : (p ∈ s.vol.inodeList ∧ vol.inodeList = s.vol.inodeList ∧
        r = (s.vol.inode p).iRefcnt ∧ (vol.inode p).iInum = (s.vol.inode p).iInum) ∨
      p ∉ s.vol.inodeList ∧ vol.inodeList = p :: s.vol.inodeList)
    (hcount : (vol.inode p).iRefcnt = r + 1)
    (hkept : ∀ q, q ≠ p → SameNode (s.vol.inode q) (vol.inode q)) :
    Joined s (addDentry { s with vol := vol } d .root dName p) d p r := by
  have hne : d ≠ .root := fun heq => hd (heq ▸ hroot)
  have hself := @addDentry_self { s with vol := vol } d .root p dName hne
  have hother := fun x hx => @addDentry_of_ne { s with vol := vol } d .root x p dName hne hx
  have hvol := fun q => @addDentry_inode { s with vol := vol } d .root p dName q
  refine ⟨hd, rfl, ?_, fun x hx => ?_, fun x hx hxr => ?_, ?_, ?_, fun q hq => ?_⟩
  · rw [hself]
    exact ⟨rfl, rfl, rfl⟩
  · rw [hother x hx]
    exact ⟨rfl, rfl⟩
  · rw [hother x hx, if_neg hxr]
    exact Int.add_zero _
  · rw [hvol]
    exact hinode
  · rw [hvol, if_pos rfl]
    show (vol.inode p).iRefcnt + 1 = r + 2
    omega
  · rw [hvol, if_neg hq]
    obtain ⟨hinum, href⟩ := hkept q hq
    exact ⟨hinum, by rw [← href]; exact Int.add_zero _⟩

/-- The count of root_dentry, the other fields of the inodes and the files do not matter. -/
theorem Joined.congr {t t' : FsState} {r : Int} (h : Joined s s' d p r)
    (hold : t.dentryList = s.dentryList)
    (hdentry : ∀ x, (t.dentry x).dParent = (s.dentry x).dParent ∧
      (t.dentry x).dInode = (s.dentry x).dInode ∧
      (x ≠ .root → (t.dentry x).dRefcnt = (s.dentry x).dRefcnt)) (hvol : t.vol = s.vol)
    (hnew : t'.dentryList = s'.dentryList ∧ t'.dentry = s'.dentry)
    (hlist : t'.vol.inodeList = s'.vol.inodeList)
    (hnode : ∀ q, SameNode (s'.vol.inode q) (t'.vol.inode q)) : Joined t t' d p r := by
  refine ⟨?_, ?_, ?_, fun x hx => ?_, fun x hx hxr => ?_, ?_, ?_, fun q hq => ?_⟩
  · rw [hold]
    exact h.fresh
  · rw [hold, hnew.1]
    exact h.list
  · rw [hnew.2]
    exact h.self
  · rw [(hdentry x).1, (hdentry x).2.1, hnew.2]
    exact h.others x hx
  · rw [(hdentry x).2.2 hxr, hnew.2]
    exact h.counts x hx hxr
  · rw [hvol, hlist, (hnode p).1]
    exact h.inode
  · rw [(hnode p).2]
    exact h.count
  · obtain ⟨hinum, href⟩ := h.kept q hq
    rw [hvol]
    exact ⟨(hnode q).1.trans hinum, (hnode q).2.trans href⟩

/-- get_inode counts a reference to a cached inode, or caches one that it reads in. -/
theorem getInode_counts {v v' : Volume} {inum addr : Nat}
    (h : getInode v inum addr = .ok (p, v')) : ∃ r : Int,
    ((findInode v inum ≠ none ∧ p ∈ v.inodeList ∧ v'.inodeList = v.inodeList ∧
        r = (v.inode p).iRefcnt ∧ (v'.inode p).iInum = (v.inode p).iInum) ∨
      findInode v inum = none ∧ p = .obj addr ∧ r = (v.inode p).iRefcnt ∧ p ∉ v.inodeList ∧
        v'.inodeList = p :: v.inodeList) ∧
      (v'.inode p).iRefcnt = r + 1 ∧ ∀ q, q ≠ p → v'.inode q = v.inode q := by
  refine ⟨(v.inode p).iRefcnt, ?_⟩
  rcases getInode_ok h with ⟨hfind, rfl⟩ | ⟨hfind, hp, hfresh, inode, hread, rfl⟩
  · refine ⟨.inl ⟨by simp [hfind], (findInode_some hfind).1, rfl, rfl, ?_⟩, ?_,
      fun q hq => Function.update_of_ne hq ..⟩
    · simp [Volume.setInode]
    · simp [Volume.setInode]
  · obtain ⟨-, -, -, -, href, -⟩ := readInode_ok hread
    refine ⟨.inr ⟨hfind, hp, rfl, hfresh, rfl⟩, ?_, fun q hq => Function.update_of_ne hq ..⟩
    show (Function.update v.inode p _ p).iRefcnt = _
    rw [Function.update_self, ← href]

/-- What sys_open finds or makes: a cached dentry, or a new one, whose inode was cached, was
just created, or was read in over whatever i_refcnt its memory held. -/
theorem openLast_joins (h : Tree s) {name : CStr} {flags : UInt32}
    (hroot : (s.dentry .root).dInode = some .root)
    (hlast : openLast s .root ⟨name.length, name⟩ flags env = .ok (some d, s')) :
    (findDentry s .root ⟨name.length, name⟩ = some d ∧ s' = addRef s d 1) ∨
      ∃ p r, Joined s s' d p r ∧
        (p ∈ s.vol.inodeList ∨ r = 0 ∨ ReadsInode s name env) ∧
        (ReadsInode s name env → p = .obj (env.inodeAt s.vol.inodeList) ∧
          p ∉ s.vol.inodeList ∧ r = (s.vol.inode p).iRefcnt) := by
  obtain ⟨d', hr, hget⟩ | ⟨hget, ⟨-, hr, -⟩ | ⟨-, d', p, s₁, hr, hnew, hcreate⟩⟩ := openLast_ok hlast
  · obtain rfl := Option.some.inj hr
    obtain ⟨dir, hdir, ⟨d', hfind, hr, rfl⟩ | ⟨hfind, pos, inum, hdisk, ⟨-, hr, -⟩ |
      ⟨hpos, p, vol, d', dName, hinode, -, hd, -, hr, rfl⟩⟩⟩ := getDentry_ok hget
    · obtain rfl := Option.some.inj hr
      exact .inl ⟨hfind, rfl⟩
    · cases hr
    · obtain rfl := Option.some.inj hr
      obtain rfl : InodePtr.root = dir := Option.some.inj (hroot.symm.trans hdir)
      obtain ⟨r, hcases, hcount, hkept⟩ := getInode_counts hinode
      have hsame : ∀ q, q ≠ p → SameNode (s.vol.inode q) (vol.inode q) := fun q hq => by
        rw [hkept q hq]
        exact ⟨rfl, rfl⟩
      refine .inr ⟨p, r, ?_, ?_, ?_⟩
      · refine joined_addDentry h.rooted.root hd ?_ hcount hsame
        rcases hcases with ⟨-, hrest⟩ | ⟨-, -, -, hrest⟩
        · exact .inl hrest
        · exact .inr hrest
      · rcases hcases with ⟨-, hp, -⟩ | ⟨hmiss, -⟩
        · exact .inl hp
        · exact .inr (.inr ⟨hfind, pos, inum, hpos, hdisk, hmiss⟩)
      · rintro ⟨-, pos', inum', -, hdisk', hmiss⟩
        obtain ⟨-, rfl⟩ := Prod.mk.inj (Except.ok.inj (hdisk.symm.trans hdisk'))
        rcases hcases with ⟨hhit, -⟩ | ⟨-, hp, hr, hnot, -⟩
        · exact absurd hmiss hhit
        · exact ⟨hp, hnot, hr⟩
  · cases hr
  · obtain rfl := Option.some.inj hr
    -- the lookup before create_inode found nothing, so no inode is read in
    have hnot : ¬ReadsInode s name env := by
      rintro ⟨hnone, pos, inum, hpos, hdisk, -⟩
      obtain ⟨dir, hdir, ⟨d', hfind, hr, -⟩ | ⟨-, pos', inum', hdisk', ⟨hneg, -, -⟩ |
        ⟨-, _, _, _, _, -, -, -, -, hr, -⟩⟩⟩ := getDentry_ok hget
      · cases hr
      · obtain rfl : InodePtr.root = dir := Option.some.inj (hroot.symm.trans hdir)
        obtain ⟨rfl, -⟩ := Prod.mk.inj (Except.ok.inj (hdisk.symm.trans hdisk'))
        omega
      · cases hr
    obtain ⟨vol, hvol, rfl⟩ := newInodeOf_ok hnew
    obtain ⟨hp, hfresh, n, disk, -, -, -, hinode, hlist⟩ := createInode_ok hvol
    obtain ⟨_, -, hnone⟩ | ⟨-, dir, _, ret, disk, dirInode, d', dName, hdir, -, hadd, -, hd, -, hr',
      hcount⟩ := createDentry_ok hcreate
    · cases hnone
    obtain rfl := Option.some.inj hr'
    obtain ⟨disk', -, rfl⟩ := countLink_ok hcount
    obtain rfl : InodePtr.root = dir := Option.some.inj (hroot.symm.trans hdir)
    have hpr : p ≠ .root := by
      rw [hp]
      exact fun heq => nomatch heq
    have hold : ∀ q, q ≠ p → vol.inode q = s.vol.inode q := fun q hq => by
      rw [hinode, Function.update_of_ne hq]
    have hsame := addDirEntry_same hadd
    refine .inr ⟨p, 0, ?_, .inr (.inl rfl), fun hreads => absurd hreads hnot⟩
    let dirVol : Volume := { vol.setInode .root dirInode with disk := disk }
    have hjoin := @joined_addDentry s d p dirVol dName 0 h.rooted.root hd (.inr ⟨hfresh, hlist⟩) ?_
      fun q hq => ?_
    · refine hjoin.congr rfl (fun _ => ⟨rfl, rfl, fun _ => rfl⟩) rfl ⟨rfl, rfl⟩ rfl fun q => ?_
      by_cases hq : q = p
      · subst hq
        exact ⟨by simp [Volume.setInode, addDentry_inode, dirVol],
          by simp [Volume.setInode, addDentry_inode, dirVol]⟩
      · exact ⟨by simp [Volume.setInode, addDentry_inode, dirVol, hq],
          by simp [Volume.setInode, addDentry_inode, dirVol, hq]⟩
    · show (Function.update vol.inode .root dirInode p).iRefcnt = 0 + 1
      rw [Function.update_of_ne hpr, hinode, Function.update_self]
      rfl
    · show SameNode (s.vol.inode q) (Function.update vol.inode .root dirInode q)
      by_cases hqr : q = .root
      · subst hqr
        rw [Function.update_self, ← hold _ hq]
        exact hsame
      · rw [Function.update_of_ne hqr, hold q hq]
        exact ⟨rfl, rfl⟩

/-! ## Users of a dentry -/

/-- The open descriptors of a dentry. -/
def users (s : Session) (d : DentryPtr) : Finset (Fin nrMaxOpen) :=
  s.opened.filter fun fd => dentryOf s.fs fd = some d

/-- While no dentry is closed under another descriptor, every dentry below root_dentry counts its
parent or its inode once, and its descriptors. -/
structure Sound (s : Session) : Prop where
  tree : Tree s.fs
  handles : Handles s.fs s.opened
  listed : ∀ fd ∈ s.opened, ∀ d, dentryOf s.fs fd = some d → d ∈ s.fs.dentryList ∧ d ≠ .root
  count : ∀ d ∈ s.fs.dentryList, d ≠ .root → 0 < (users s d).card ∧
    (s.fs.dentry d).dRefcnt = 1 + (users s d).card
  number : ∀ fd ∈ s.opened, s.inumAt fd = inumOf s.fs fd

theorem mem_users {s : Session} {fd : Fin nrMaxOpen} :
    fd ∈ users s d ↔ fd ∈ s.opened ∧ dentryOf s.fs fd = some d := by
  rw [users, Finset.mem_filter]

theorem inumOf_eq {fd : Fin nrMaxOpen} (hd : dentryOf s fd = some d)
    (hp : (s.dentry d).dInode = some p) : inumOf s fd = some (s.vol.inode p).iInum := by
  simp [inumOf, hd, hp]

theorem Sound.usable {s : Session} (h : Sound s) : Usable s := by
  intro fd hfd
  obtain ⟨f, d, hf, -, hd⟩ := h.handles.file fd hfd
  have hof : dentryOf s.fs fd = some d := (dentryOf_eq hf).trans hd
  obtain ⟨hlist, hne⟩ := h.listed fd hfd d hof
  obtain ⟨hparent, p, hp, hlink⟩ := h.tree.child d hlist hne
  refine ⟨d, p, hof, hlist, ?_, hlink, hp, ?_, ?_⟩
  · rw [hparent]
    exact Option.some_ne_none _
  · have hone : 0 < (links s.fs p).card := Finset.card_pos.mpr ⟨d, mem_links.mpr ⟨hlist, hne, hlink⟩⟩
    have := h.tree.linked p hp
    omega
  · rw [h.number fd hfd, inumOf_eq hof hlink]

/-- The slot and the reference that sys_open takes before it looks the file up. -/
def opening (s : FsState) (fd : Fin nrMaxOpen) (f : Nat) (flags : UInt32) : FsState :=
  addRef (withSlot s fd f flags) .root 1

theorem opening_dentry {x : DentryPtr} (fd : Fin nrMaxOpen) (f : Nat) (flags : UInt32)
    (hx : x ≠ .root) : (opening s fd f flags).dentry x = s.dentry x :=
  addRef_of_ne 1 hx

/-- The reference on root_dentry does not change what a name is looked up to. -/
theorem readsInode_opening (h : Rooted s) {name : CStr} (hname : IsName name)
    {fd : Fin nrMaxOpen} {f : Nat} {flags : UInt32} :
    ReadsInode (opening s fd f flags) name env ↔ ReadsInode s name env := by
  have hfind : findDentry (opening s fd f flags) .root ⟨name.length, name⟩ =
      findDentry s .root ⟨name.length, name⟩ := by
    refine List.find?_congr fun x _ => ?_
    by_cases hx : x = .root
    · subst hx
      have hne := qstrcmp_rootName hname
      have hname' : ((opening s fd f flags).dentry .root).dName = rootName := by
        rw [opening, addRef_self]
        exact h.name
      simp [hname', h.name, hne]
    · rw [opening_dentry fd f flags hx]
  rw [ReadsInode, hfind]
  exact Iff.rfl

theorem Tree.opening (h : Tree s) {f : Nat} (hfresh : f ∉ s.files) (fd : Fin nrMaxOpen)
    (flags : UInt32) : Tree (opening s fd f flags) :=
  (h.withSlot hfresh fd flags).addRef .root 1

section Opened

variable {s : Session} {fs : FsState} {fd : Fin nrMaxOpen} {f : Nat}

/-- The session after sys_open returned `fd`. -/
def afterOpen (s : Session) (fs : FsState) (fd : Fin nrMaxOpen) : Session :=
  ⟨fs, insert fd s.opened, Function.update s.inumAt fd (inumOf fs fd)⟩

theorem users_afterOpen (h : Sound s) (hfill : Filled s.fs fs fd f d) (x : DentryPtr) :
    users (afterOpen s fs fd) x = if x = d then insert fd (users s x) else users s x := by
  have hnew := h.handles.not_mem hfill.slot
  ext fd'
  rw [mem_users]
  by_cases hfd' : fd' = fd
  · subst hfd'
    have hself : dentryOf (afterOpen s fs fd').fs fd' = some d := hfill.dentryOf_self
    have hold : fd' ∉ users s x := fun hmem => hnew (mem_users.mp hmem).1
    rw [hself]
    split_ifs with hx
    · simp [afterOpen, hx]
    · simp [hold, Ne.symm hx]
  · have hmem : fd' ∈ (afterOpen s fs fd).opened ↔ fd' ∈ s.opened := by
      simp [afterOpen, hfd']
    have hrest : fd' ∈ (if x = d then insert fd (users s x) else users s x) ↔ fd' ∈ users s x := by
      split_ifs
      · simp [hfd']
      · exact Iff.rfl
    rw [hmem, hrest, mem_users]
    exact and_congr_right fun hin => by rw [← hfill.dentryOf_old h.handles hin]; rfl

theorem card_users_afterOpen (h : Sound s) (hfill : Filled s.fs fs fd f d) (x : DentryPtr) :
    (users (afterOpen s fs fd) x).card = (users s x).card + if x = d then 1 else 0 := by
  have hnot : fd ∉ users s x := fun hmem => h.handles.not_mem hfill.slot (mem_users.mp hmem).1
  rw [users_afterOpen h hfill]
  split_ifs
  · rw [Finset.card_insert_of_notMem hnot]
  · rfl

/-- The descriptor keeps its number while its dentry keeps its inode. -/
theorem number_afterOpen (h : Sound s) (hfill : Filled s.fs fs fd f d)
    (hkept : ∀ fd' ∈ s.opened, inumOf fs fd' = inumOf s.fs fd') :
    ∀ fd' ∈ (afterOpen s fs fd).opened,
      (afterOpen s fs fd).inumAt fd' = inumOf (afterOpen s fs fd).fs fd' := by
  intro fd' hfd'
  by_cases hne : fd' = fd
  · subst hne
    exact Function.update_self ..
  · have hmem : fd' ∈ s.opened := (Finset.mem_insert.mp hfd').resolve_left hne
    show Function.update s.inumAt fd _ fd' = inumOf fs fd'
    rw [Function.update_of_ne hne, hkept fd' hmem, h.number fd' hmem]

/-- An open descriptor has its dentry and the inode behind it. -/
theorem Sound.behind (h : Sound s) (hfd : fd ∈ s.opened) : ∃ d p, dentryOf s.fs fd = some d ∧
    d ∈ s.fs.dentryList ∧ d ≠ .root ∧ (s.fs.dentry d).dInode = some p ∧
    p ∈ s.fs.vol.inodeList := by
  obtain ⟨f, d, hf, -, hd⟩ := h.handles.file fd hfd
  have hof : dentryOf s.fs fd = some d := (dentryOf_eq hf).trans hd
  obtain ⟨hlist, hne⟩ := h.listed fd hfd d hof
  obtain ⟨-, p, hp, hlink⟩ := h.tree.child d hlist hne
  exact ⟨d, p, hof, hlist, hne, hlink, hp⟩

/-- A cached dentry gets one more user. -/
theorem Sound.hit (h : Sound s) (hfill : Filled s.fs fs fd f d) (hd : d ∈ s.fs.dentryList)
    (hne : d ≠ .root) (hroot : Rooted fs) (hlist : fs.dentryList = s.fs.dentryList)
    (hvol : fs.vol = s.fs.vol)
    (hdentry : ∀ x, (fs.dentry x).dParent = (s.fs.dentry x).dParent ∧
      (fs.dentry x).dInode = (s.fs.dentry x).dInode)
    (hcount : ∀ x, x ≠ .root → (fs.dentry x).dRefcnt =
      (s.fs.dentry x).dRefcnt + if x = d then 1 else 0) : Sound (afterOpen s fs fd) := by
  refine ⟨h.tree.congr hroot hlist hdentry hvol, h.handles.fill hfill, fun fd' hfd' x hx => ?_,
    fun x hx hxr => ?_, number_afterOpen h hfill fun fd' hfd' => ?_⟩
  · show x ∈ fs.dentryList ∧ x ≠ .root
    rw [hlist]
    rcases Finset.mem_insert.mp hfd' with rfl | hmem
    · obtain rfl := Option.some.inj (hfill.dentryOf_self.symm.trans hx)
      exact ⟨hd, hne⟩
    · exact h.listed fd' hmem x ((hfill.dentryOf_old h.handles hmem).symm.trans hx)
  · change x ∈ fs.dentryList at hx
    rw [hlist] at hx
    obtain ⟨hpos, hold⟩ := h.count x hx hxr
    rw [card_users_afterOpen h hfill]
    refine ⟨by omega, ?_⟩
    show (fs.dentry x).dRefcnt = _
    rw [hcount x hxr, hold]
    push_cast
    ring
  · obtain ⟨x, p, hof, -, -, hlink, -⟩ := h.behind hfd'
    rw [inumOf_eq hof hlink, inumOf_eq ((hfill.dentryOf_old h.handles hfd').trans hof)
      ((hdentry x).2.trans hlink), hvol]

/-- A dentry that joins the cache has one user. -/
theorem Sound.join (h : Sound s) (hfill : Filled s.fs fs fd f d) {r : Int}
    (hj : Joined s.fs fs d p r) (hroot : Rooted fs) (hr : p ∉ s.fs.vol.inodeList → -1 ≤ r) :
    Sound (afterOpen s fs fd) := by
  have hne : d ≠ .root := fun heq => hj.fresh (heq ▸ h.tree.rooted.root)
  have hnone : users s d = ∅ := by
    rw [Finset.eq_empty_iff_forall_notMem]
    intro fd' hfd'
    obtain ⟨hopen, hof⟩ := mem_users.mp hfd'
    exact hj.fresh (h.listed fd' hopen d hof).1
  refine ⟨h.tree.join hj hroot hr, h.handles.fill hfill, fun fd' hfd' x hx => ?_,
    fun x hx hxr => ?_, number_afterOpen h hfill fun fd' hfd' => ?_⟩
  · show x ∈ fs.dentryList ∧ x ≠ .root
    rw [hj.list]
    rcases Finset.mem_insert.mp hfd' with rfl | hmem
    · obtain rfl := Option.some.inj (hfill.dentryOf_self.symm.trans hx)
      exact ⟨List.mem_cons_self .., hne⟩
    · obtain ⟨hlist, hxr⟩ := h.listed fd' hmem x ((hfill.dentryOf_old h.handles hmem).symm.trans hx)
      exact ⟨List.mem_cons_of_mem _ hlist, hxr⟩
  · rw [card_users_afterOpen h hfill]
    show _ ∧ (fs.dentry x).dRefcnt = _
    change x ∈ fs.dentryList at hx
    by_cases hxd : x = d
    · rw [hxd, hnone, hj.self.2.2, if_pos rfl]
      exact ⟨one_pos, rfl⟩
    · rw [hj.list] at hx
      obtain ⟨hpos, hold⟩ := h.count x ((List.mem_cons.mp hx).resolve_left hxd) hxr
      rw [if_neg hxd, hj.counts x hxd hxr, hold]
      exact ⟨hpos, rfl⟩
  · obtain ⟨x, q, hof, hlist, -, hlink, hq⟩ := h.behind hfd'
    have hxd : x ≠ d := fun heq => hj.fresh (heq ▸ hlist)
    rw [inumOf_eq hof hlink, inumOf_eq ((hfill.dentryOf_old h.handles hfd').trans hof)
      ((hj.others x hxd).2.trans hlink), hj.iInum hq]

/-- A descriptor that sys_open returned: its name was cached, or its dentry joined the cache. -/
theorem Sound.opened_cases (h : Sound s) {name : CStr} (hname : IsName name) {flags : UInt32}
    (hopen : sysOpen s.fs (rootPath name) flags env = .ok (some fd, fs)) :
    (¬ReadsInode s.fs name env ∧ Sound (afterOpen s fs fd)) ∨
      ∃ f d p r, Filled s.fs fs fd f d ∧ Joined s.fs fs d p r ∧
        (p ∈ s.fs.vol.inodeList ∨ r = 0 ∨ ReadsInode s.fs name env) ∧
        (ReadsInode s.fs name env → p = .obj (env.inodeAt s.fs.vol.inodeList) ∧
          p ∉ s.fs.vol.inodeList ∧ r = (s.fs.vol.inode p).iRefcnt) := by
  obtain ⟨f, d, s₁, hfill, hroot, hlast, rfl⟩ := sysOpen_name hname hopen
  have hrooted := h.tree.rooted.sysOpen hopen
  have htree : Tree (opening s.fs fd f flags) := h.tree.opening hfill.fresh fd flags
  have hroot' : ((opening s.fs fd f flags).dentry .root).dInode = some .root := by
    rw [opening, addRef_self]
    exact hroot
  have hreads := @readsInode_opening s.fs env h.tree.rooted name hname fd f flags
  rcases openLast_joins htree hroot' hlast with ⟨hfind, rfl⟩ | ⟨p, r, hj, hcases, hread⟩
  · have hd := findDentry_some hfind
    have hne : d ≠ .root := htree.rooted.find_ne_root hname hfind
    refine .inl ⟨?_, h.hit hfill hd.1 hne hrooted rfl rfl (fun x => ?_) fun x hx => ?_⟩
    · rw [← hreads]
      rintro ⟨hnone, -⟩
      rw [hfind] at hnone
      cases hnone
    · show ((addRef (opening s.fs fd f flags) d 1).dentry x).dParent = _ ∧
        ((addRef (opening s.fs fd f flags) d 1).dentry x).dInode = _
      rw [addRef_dentry, opening, addRef_dentry]
      exact ⟨rfl, rfl⟩
    · show ((addRef (opening s.fs fd f flags) d 1).dentry x).dRefcnt = _
      rw [addRef_dentry, opening_dentry fd f flags hx]
  · rw [hreads] at hcases hread
    refine .inr ⟨f, d, p, r, hfill, ?_, hcases, hread⟩
    refine hj.congr rfl (fun x => ⟨?_, ?_, fun hx => ?_⟩) rfl ⟨rfl, rfl⟩ rfl fun _ => ⟨rfl, rfl⟩
    · rw [opening, addRef_dentry]
      rfl
    · rw [opening, addRef_dentry]
      rfl
    · rw [opening_dentry fd f flags hx]

theorem Sound.open (h : Sound s) {name : CStr} (hname : IsName name) {flags : UInt32}
    (hopen : sysOpen s.fs (rootPath name) flags env = .ok (some fd, fs))
    (hsafe : Safe s (.opened name flags env (some fd))) : Sound (afterOpen s fs fd) := by
  obtain ⟨-, hsound⟩ | ⟨f, d, p, r, hfill, hj, hcases, hread⟩ := h.opened_cases hname hopen
  · exact hsound
  · refine h.join hfill hj (h.tree.rooted.sysOpen hopen) fun hnot => ?_
    rcases hcases with hmem | rfl | hreads
    · exact absurd hmem hnot
    · decide
    · obtain ⟨rfl, -, rfl⟩ := hread hreads
      exact hsafe hreads

/-- An inode read in over a count below -1 has no reference left for its descriptor. -/
theorem Sound.open_break (h : Sound s) {name : CStr} (hname : IsName name) {flags : UInt32}
    (hopen : sysOpen s.fs (rootPath name) flags env = .ok (some fd, fs))
    (hsafe : ¬Safe s (.opened name flags env (some fd))) : ¬Usable (afterOpen s fs fd) := by
  obtain ⟨hreads, hlow⟩ := Classical.not_imp.mp hsafe
  obtain ⟨hnot, -⟩ | ⟨f, d, p, r, hfill, hj, -, hread⟩ := h.opened_cases hname hopen
  · exact absurd hreads hnot
  · obtain ⟨rfl, -, rfl⟩ := hread hreads
    intro husable
    obtain ⟨d', q, hof, -, -, hlink, -, hpos, -⟩ := husable fd (Finset.mem_insert_self ..)
    obtain rfl := Option.some.inj (hfill.dentryOf_self.symm.trans hof)
    obtain rfl := Option.some.inj (hj.self.2.1.symm.trans hlink)
    change 0 < (fs.vol.inode _).iRefcnt at hpos
    rw [hj.count] at hpos
    omega

/-- A call that returns -1 leaves everything that is open alone. -/
theorem Sound.failed (h : Sound s) {name : CStr} (hname : IsName name) {flags : UInt32}
    (hopen : sysOpen s.fs (rootPath name) flags env = .ok (none, fs)) :
    Sound { s with fs := fs } := by
  have hrooted := h.tree.rooted.sysOpen hopen
  rcases sysOpen_name_none hname hopen with rfl | ⟨slot, f, hslot, hfresh, rfl⟩
  · exact h
  have hfilp : ∀ fd ∈ s.opened, (withSlot s.fs slot f flags).filp fd = s.fs.filp fd := by
    intro fd hfd
    exact Function.update_of_ne (fun (heq : fd = slot) => h.handles.not_mem hslot (heq ▸ hfd)) ..
  have hfile : ∀ g ∈ s.fs.files, (withSlot s.fs slot f flags).file g = s.fs.file g := by
    intro g hg
    exact Function.update_of_ne (fun (heq : g = f) => hfresh (heq ▸ hg)) ..
  have hof : ∀ fd ∈ s.opened,
      dentryOf { opening s.fs slot f flags with files := s.fs.files } fd = dentryOf s.fs fd := by
    intro fd hfd
    obtain ⟨g, x, hg, hlive, -⟩ := h.handles.file fd hfd
    rw [dentryOf_eq hg, ← hfile g hlive]
    exact dentryOf_eq ((hfilp fd hfd).trans hg)
  have hparts : ∀ x, ((opening s.fs slot f flags).dentry x).dParent = (s.fs.dentry x).dParent ∧
      ((opening s.fs slot f flags).dentry x).dInode = (s.fs.dentry x).dInode := by
    intro x
    rw [opening, addRef_dentry]
    exact ⟨rfl, rfl⟩
  refine ⟨h.tree.congr hrooted rfl hparts rfl, ⟨fun fd hfd => ?_, fun a ha b hb heq => ?_,
    h.handles.nodup⟩, fun fd hfd x hx => ?_, fun x hx hxr => ?_, fun fd hfd => ?_⟩
  · obtain ⟨g, x, hg, hlive, hx⟩ := h.handles.file fd hfd
    exact ⟨g, x, (hfilp fd hfd).trans hg, hlive, (congrArg File.fDentry (hfile g hlive)).trans hx⟩
  · have heq' := (hfilp a ha).symm.trans (heq.trans (hfilp b hb))
    exact h.handles.unshared a ha b hb heq'
  · exact h.listed fd hfd x ((hof fd hfd).symm.trans hx)
  · have husers : users { s with fs := { opening s.fs slot f flags with files := s.fs.files } } x =
        users s x := by
      ext fd
      rw [mem_users, mem_users]
      exact and_congr_right fun hfd => by rw [← hof fd hfd]
    obtain ⟨hpos, hcount⟩ := h.count x hx hxr
    refine ⟨husers ▸ hpos, ?_⟩
    show ((opening s.fs slot f flags).dentry x).dRefcnt = 1 + ((users _ x).card : Int)
    rw [opening_dentry slot f flags hxr, hcount]
    exact congrArg (fun c : Finset _ => 1 + (c.card : Int)) husers.symm
  · obtain ⟨x, p, hx, -, -, hlink, -⟩ := h.behind hfd
    rw [h.number fd hfd, inumOf_eq hx hlink]
    exact (inumOf_eq ((hof fd hfd).trans hx) ((hparts x).2.trans hlink)).symm

end Opened

section Closed

variable {s : Session} {fs : FsState} {fd : Fin nrMaxOpen}

/-- put_dentry of a dentry below root_dentry with a single user takes it off the list. -/
theorem Sound.put_ok (h : Sound s) (hd : d ∈ s.fs.dentryList) (hne : d ≠ .root)
    (hone : (users s d).card = 1) (hput : putDentry s.fs d env = .ok fs) :
    ∃ p vol, (s.fs.dentry d).dInode = some p ∧ p ∈ s.fs.vol.inodeList ∧
      putInode (unlinkDentry s.fs d .root p).vol p (env.ptrs 3) = .ok vol ∧
      fs = { unlinkDentry s.fs d .root p with
        vol := vol
        dentryList := s.fs.dentryList.erase d } := by
  obtain ⟨hparent, q, hq, hlink⟩ := h.tree.child d hd hne
  obtain ⟨-, parent, p, hparent', hlink', hcases⟩ := putDentry_ok hput
  obtain rfl := Option.some.inj (hparent.symm.trans hparent')
  obtain rfl := Option.some.inj (hlink.symm.trans hlink')
  have htwo : (s.fs.dentry d).dRefcnt = 2 := by
    rw [(h.count d hd hne).2, hone]
    rfl
  rw [htwo, if_neg hne.symm] at hcases
  obtain ⟨hnot, -⟩ | ⟨-, -, vol, hvol, rfl⟩ := hcases
  · exact absurd rfl hnot
  · exact ⟨q, vol, hlink, hq, hvol, rfl⟩

/-- put_inode after the unlink takes two references, and the last take the inode off the list. -/
theorem putInode_counts {vol : Volume} {parent : DentryPtr} {ptrs : Pointers}
    (hput : putInode (unlinkDentry s.fs d parent p).vol p ptrs = .ok vol) :
    (∀ q, q ≠ p → SameNode (s.fs.vol.inode q) (vol.inode q)) ∧
      ((vol.inodeList = s.fs.vol.inodeList ∧ (vol.inode p).iInum = (s.fs.vol.inode p).iInum ∧
          (vol.inode p).iRefcnt = (s.fs.vol.inode p).iRefcnt - 2) ∨
        vol.inodeList = s.fs.vol.inodeList.erase p ∧ (s.fs.vol.inode p).iRefcnt = 2) := by
  have hself := @unlinkDentry_inode s.fs d parent p p
  rw [if_pos rfl] at hself
  have hother : ∀ q, q ≠ p → SameNode (s.fs.vol.inode q)
      ((unlinkDentry s.fs d parent p).vol.inode q) := fun q hq => by
    rw [unlinkDentry_inode, if_neg hq]
    exact ⟨rfl, Int.sub_zero _⟩
  obtain ⟨-, ⟨-, rfl⟩ | ⟨hone, -, hlist, hkept, -⟩⟩ := putInode_ok hput
  · refine ⟨fun q hq => ?_, .inl ⟨rfl, ?_, ?_⟩⟩
    · show SameNode _ (Function.update (unlinkDentry s.fs d parent p).vol.inode p _ q)
      rw [Function.update_of_ne hq]
      exact hother q hq
    · show (Function.update (unlinkDentry s.fs d parent p).vol.inode p _ p).iInum = _
      rw [Function.update_self, hself]
    · show (Function.update (unlinkDentry s.fs d parent p).vol.inode p _ p).iRefcnt = _
      rw [Function.update_self, hself]
      show (s.fs.vol.inode p).iRefcnt - 1 - 1 = _
      ring
  · refine ⟨fun q hq => by rw [hkept q hq]; exact hother q hq, .inr ⟨hlist, ?_⟩⟩
    rw [hself] at hone
    change (s.fs.vol.inode p).iRefcnt - 1 = 1 at hone
    omega

/-- The session after sys_close. -/
def afterClose (s : Session) (fs : FsState) (fd : Fin nrMaxOpen) : Session :=
  { s with fs := fs, opened := s.opened.erase fd }

/-- The caches after the last put of `d`. -/
structure Left (s s' : FsState) (d : DentryPtr) (p : InodePtr) : Prop where
  list : s'.dentryList = s.dentryList.erase d
  others : ∀ x, x ≠ d → (s'.dentry x).dParent = (s.dentry x).dParent ∧
    (s'.dentry x).dInode = (s.dentry x).dInode ∧
    (x ≠ .root → (s'.dentry x).dRefcnt = (s.dentry x).dRefcnt)
  kept : ∀ q, q ≠ p → SameNode (s.vol.inode q) (s'.vol.inode q)
  inode : (s'.vol.inodeList = s.vol.inodeList ∧ (s'.vol.inode p).iInum = (s.vol.inode p).iInum ∧
      (s'.vol.inode p).iRefcnt = (s.vol.inode p).iRefcnt - 2) ∨
    s'.vol.inodeList = s.vol.inodeList.erase p ∧ (s.vol.inode p).iRefcnt = 2

theorem left_put {s fs : FsState} {vol : Volume} {ptrs : Pointers}
    (hput : putInode (unlinkDentry s d .root p).vol p ptrs = .ok vol)
    (hdentry : fs.dentry = (unlinkDentry s d .root p).dentry)
    (hlist : fs.dentryList = s.dentryList.erase d) (hvol : fs.vol = vol) : Left s fs d p := by
  obtain ⟨hkept, hinode⟩ := @putInode_counts d p ⟨s, ∅, fun _ => none⟩ vol .root ptrs hput
  refine ⟨hlist, fun x hx => ?_, hvol ▸ hkept, hvol ▸ hinode⟩
  rw [hdentry, unlinkDentry_of_ne hx]
  refine ⟨rfl, rfl, fun hxr => ?_⟩
  rw [if_neg hxr]
  exact Int.sub_zero _

/-- An inode that still has a dentry stays on the list. -/
theorem Left.mem_inodeList {s s' : FsState} (hl : Left s s' d p) (h : Tree s)
    (hd : d ∈ links s p) {x : DentryPtr} {q : InodePtr} (hx : x ∈ links s q) (hxd : x ≠ d)
    (hq : q ∈ s.vol.inodeList) :
    q ∈ s'.vol.inodeList ∧ (s'.vol.inode q).iInum = (s.vol.inode q).iInum := by
  by_cases hqp : q = p
  · subst hqp
    rcases hl.inode with ⟨hlist, hinum, -⟩ | ⟨-, htwo⟩
    · exact ⟨hlist ▸ hq, hinum⟩
    · -- two references pay for one dentry only
      have hmore : 1 < (links s q).card := Finset.one_lt_card.mpr ⟨x, hx, d, hd, hxd⟩
      have := h.linked q hq
      omega
  · refine ⟨?_, (hl.kept q hqp).1⟩
    rcases hl.inode with ⟨hlist, -⟩ | ⟨hlist, -⟩
    · exact hlist ▸ hq
    · rw [hlist]
      exact (List.mem_erase_of_ne hqp).mpr hq

theorem Tree.leave {s s' : FsState} (h : Tree s) (hl : Left s s' d p) (hroot : Rooted s')
    (hd : d ∈ links s p) : Tree s' := by
  have hmem : ∀ x, x ∈ s'.dentryList ↔ x ≠ d ∧ x ∈ s.dentryList := fun x => by
    rw [hl.list]
    exact h.rooted.nodup.mem_erase_iff
  have hlinks : ∀ q, links s' q = (links s q).erase d := by
    intro q
    ext x
    rw [Finset.mem_erase, mem_links, mem_links, hmem]
    by_cases hx : x = d
    · simp [hx]
    · rw [(hl.others x hx).2.1]
      tauto
  refine ⟨hroot, ?_, fun x hx hxr => ?_, fun q hq => ?_⟩
  · rcases hl.inode with ⟨hlist, -⟩ | ⟨hlist, -⟩
    · exact hlist ▸ h.inodes
    · exact hlist ▸ h.inodes.erase p
  · obtain ⟨hxd, hx⟩ := (hmem x).mp hx
    obtain ⟨hparent, q, hq, hlink⟩ := h.child x hx hxr
    rw [(hl.others x hxd).1, (hl.others x hxd).2.1]
    exact ⟨hparent, q, (hl.mem_inodeList h hd (mem_links.mpr ⟨hx, hxr, hlink⟩) hxd hq).1, hlink⟩
  · rw [hlinks]
    by_cases hqp : q = p
    · subst hqp
      have hcard := Finset.card_erase_add_one hd
      rcases hl.inode with ⟨hlist, -, href⟩ | ⟨hlist, -⟩
      · have := h.linked q (hlist ▸ hq)
        rw [href]
        omega
      · rw [hlist] at hq
        exact absurd hq h.inodes.not_mem_erase
    · rw [(hl.kept q hqp).2]
      have hnot : d ∉ links s q := fun hdq => hqp (Option.some.inj
        ((mem_links.mp hdq).2.2.symm.trans (mem_links.mp hd).2.2))
      rw [Finset.erase_eq_of_notMem hnot]
      refine h.linked q ?_
      rcases hl.inode with ⟨hlist, -⟩ | ⟨hlist, -⟩
      · exact hlist ▸ hq
      · exact List.mem_of_mem_erase (hlist ▸ hq)

theorem Sound.close (h : Sound s) (hfd : fd ∈ s.opened)
    (hsafe : Safe s (.closed fd env)) (hclose : sysClose s.fs fd env = .ok fs) :
    Sound (afterClose s fs fd) := by
  obtain ⟨d, s₁, hof, hput, hvol, hdentry, hlist, hhandles, hkept⟩ := h.handles.sysClose hfd hclose
  obtain ⟨hd, hne⟩ := h.listed fd hfd d hof
  rw [close_eq_putDentry (h.tree.child d hd hne).1] at hput
  have husers : users s d = {fd} := by
    ext fd'
    rw [mem_users, Finset.mem_singleton]
    constructor
    · intro ⟨hopen, hof'⟩
      exact hsafe fd' hopen (hof'.trans hof.symm)
    · rintro rfl
      exact ⟨hfd, hof⟩
  obtain ⟨p, vol, hlink, hp, hputInode, rfl⟩ := h.put_ok hd hne (by rw [husers]; rfl) hput
  have hleft : Left s.fs fs d p := left_put hputInode hdentry hlist hvol
  have hdlinks : d ∈ links s.fs p := mem_links.mpr ⟨hd, hne, hlink⟩
  have hapart : ∀ fd' ∈ s.opened.erase fd, ∀ x, dentryOf s.fs fd' = some x → x ≠ d := by
    rintro fd' hfd' x hx rfl
    obtain ⟨hne', hopen⟩ := Finset.mem_erase.mp hfd'
    exact hne' (hsafe fd' hopen (hx.trans hof.symm))
  refine ⟨h.tree.leave hleft (h.tree.rooted.sysClose hclose) hdlinks, hhandles,
    fun fd' hfd' x hx => ?_, fun x hx hxr => ?_, fun fd' hfd' => ?_⟩
  · have hx' : dentryOf s.fs fd' = some x := (hkept fd').symm.trans hx
    obtain ⟨hxlist, hxr⟩ := h.listed fd' (Finset.mem_of_mem_erase hfd') x hx'
    refine ⟨?_, hxr⟩
    show x ∈ fs.dentryList
    rw [hleft.list]
    exact (List.mem_erase_of_ne (hapart fd' hfd' x hx')).mpr hxlist
  · change x ∈ fs.dentryList at hx
    rw [hleft.list, h.tree.rooted.nodup.mem_erase_iff] at hx
    obtain ⟨hxd, hx⟩ := hx
    have hsame : users (afterClose s fs fd) x = users s x := by
      ext fd'
      rw [mem_users, mem_users]
      show fd' ∈ s.opened.erase fd ∧ dentryOf fs fd' = some x ↔ _
      rw [hkept fd', Finset.mem_erase]
      refine ⟨fun hin => ⟨hin.1.2, hin.2⟩, fun hin => ⟨⟨?_, hin.1⟩, hin.2⟩⟩
      rintro rfl
      exact hxd (Option.some.inj (hin.2.symm.trans hof))
    obtain ⟨hpos, hcount⟩ := h.count x hx hxr
    rw [hsame]
    refine ⟨hpos, ?_⟩
    show (fs.dentry x).dRefcnt = _
    rw [(hleft.others x hxd).2.2 hxr, hcount]
  · have hopen := Finset.mem_of_mem_erase hfd'
    obtain ⟨x, q, hx, hxlist, hxr, hxlink, hq⟩ := h.behind hopen
    have hxd := hapart fd' hfd' x hx
    have hsame := (hleft.mem_inodeList h.tree hdlinks (mem_links.mpr ⟨hxlist, hxr, hxlink⟩) hxd hq).2
    show s.inumAt fd' = inumOf fs fd'
    rw [h.number fd' hopen, inumOf_eq hx hxlink, inumOf_eq ((hkept fd').trans hx)
      ((hleft.others x hxd).2.1.trans hxlink), hsame]

/-- put_dentry unlinks the dentry whoever else uses it. -/
theorem Sound.close_break (h : Sound s) (hfd : fd ∈ s.opened)
    (hsafe : ¬Safe s (.closed fd env)) (hclose : sysClose s.fs fd env = .ok fs) :
    ¬Usable (afterClose s fs fd) := by
  obtain ⟨d, s₁, hof, hput, -, hdentry, -, -, hkept⟩ := h.handles.sysClose hfd hclose
  obtain ⟨hd, hne⟩ := h.listed fd hfd d hof
  rw [close_eq_putDentry (h.tree.child d hd hne).1] at hput
  have hcut : (fs.dentry d).dParent = none := by
    rw [hdentry]
    obtain ⟨-, parent, p, -, -, ⟨-, rfl⟩ | ⟨-, -, vol, -, rfl⟩⟩ := putDentry_ok hput
    · rw [unlinkDentry_self]
    · show ((unlinkDentry s.fs d parent p).dentry d).dParent = none
      rw [unlinkDentry_self]
  simp only [Safe, not_forall] at hsafe
  obtain ⟨fd', hopen, hsame, hfd'⟩ := hsafe
  intro husable
  obtain ⟨d', p, hof', -, hparent, -⟩ := husable fd' (Finset.mem_erase.mpr ⟨hfd', hopen⟩)
  have hd' : d = d' := Option.some.inj ((hof.symm.trans hsame.symm).trans ((hkept fd').symm.trans hof'))
  exact hparent (hd' ▸ hcut)

end Closed

/-! ## Runs -/

theorem Sound.step {s s' : Session} {a : Event} (h : Sound s) (hsafe : Safe s a)
    (st : Step s a s') : Sound s' := by
  cases st with
  | opened hname hopen => exact h.open hname hopen hsafe
  | failed hname hopen => exact h.failed hname hopen
  | closed hfd hclose => exact h.close hfd hsafe hclose

theorem Sound.break {s s' : Session} {a : Event} (h : Sound s) (hsafe : ¬Safe s a)
    (st : Step s a s') : ¬Usable s' := by
  cases st with
  | opened hname hopen => exact h.open_break hname hopen hsafe
  | failed hname hopen => exact absurd trivial hsafe
  | closed hfd hclose => exact h.close_break hfd hsafe hclose

/-- The session fs_init leaves. -/
def start (s : FsState) : Session := ⟨s, ∅, fun _ => none⟩

theorem Sound.start {memory : FsState} {disk : Disk} {ptrs : Pointers}
    (hinit : fsInit memory disk ptrs = .ok s) : Sound (start s) := by
  obtain ⟨hlist, -, hinodes, -, href, -, hfiles, -⟩ := fsInit_ok hinit
  have hempty : ∀ p, links s p = ∅ := by
    intro p
    rw [links, hlist]
    rfl
  refine ⟨⟨.fsInit hinit, ?_, fun x hx hne => ?_, fun p hp => ?_⟩, ⟨fun fd hfd => ?_,
    fun fd hfd => ?_, ?_⟩, fun fd hfd => ?_, fun x hx hne => ?_, fun fd hfd => ?_⟩
  · rw [OpenSafety.start, hinodes]
    exact List.nodup_singleton _
  · change x ∈ s.dentryList at hx
    rw [hlist] at hx
    exact absurd (List.mem_singleton.mp hx) hne
  · change p ∈ s.vol.inodeList at hp
    rw [hinodes] at hp
    obtain rfl := List.mem_singleton.mp hp
    show 2 * ((links s .root).card : Int) ≤ (s.vol.inode .root).iRefcnt + 1
    rw [hempty, href]
    decide
  · exact absurd hfd (Finset.notMem_empty fd)
  · exact absurd hfd (Finset.notMem_empty fd)
  · show s.files.Nodup
    rw [hfiles]
    exact List.nodup_nil
  · exact absurd hfd (Finset.notMem_empty fd)
  · change x ∈ s.dentryList at hx
    rw [hlist] at hx
    exact absurd (List.mem_singleton.mp hx) hne
  · exact absurd hfd (Finset.notMem_empty fd)

/-- Along every run from fs_init the open descriptors stay usable exactly as long as no dentry is
closed under another descriptor and no inode is read in over a count below -1. -/
theorem open_files_usable_iff {memory : FsState} {disk : Disk} {ptrs : Pointers}
    (hinit : fsInit memory disk ptrs = .ok s) {tr : List (Event × Session)}
    (hrun : Exec Step (start s) tr) :
    Always Usable (start s) tr ↔ Guarded Safe (start s) tr := by
  have hstart : Sound (start s) := Sound.start hinit
  exact hrun.always_iff_guarded (fun _ => Sound.usable)
    (fun _ _ _ h hsafe st => Sound.step h hsafe st)
    (fun _ _ _ h hsafe st => Sound.break h hsafe st) hstart

/-! ## Two files, and a file that is open twice -/

def nameA : CStr := [97]

def nameB : CStr := [98]

theorem isName_nameA : IsName nameA := by
  intro c hc
  rw [List.mem_singleton.mp hc]
  decide

theorem isName_nameB : IsName nameB := by
  intro c hc
  rw [List.mem_singleton.mp hc]
  decide

/-- What two sys_opens and a sys_close of the first descriptor leave. -/
structure Twice where
  boot : FsState
  once : FsState
  both : FsState
  closed : FsState

def openTwice : Kernel Twice := do
  let boot ← bootBlank
  let (fd, once) ← sysOpen boot (rootPath nameA) 1 plainEnv
  access (fd = some 0) "fd"
  let (fd, both) ← sysOpen once (rootPath nameA) 0 plainEnv
  access (fd = some 1) "fd"
  let closed ← sysClose both 0 plainEnv
  pure ⟨boot, once, both, closed⟩

/-- Both descriptors had the same dentry, which has lost its parent. -/
def Cut (r : Twice) : Prop := ∃ d, dentryOf r.both 0 = some d ∧ dentryOf r.closed 1 = some d ∧
  (r.closed.dentry d).dParent = none

def cut (r : Twice) : Bool :=
  match dentryOf r.closed 1 with
  | some d => decide (dentryOf r.both 0 = some d ∧ (r.closed.dentry d).dParent = none)
  | none => false

theorem openTwice_run : ∃ r, openTwice = .ok r ∧ Cut r := by
  have hrun : (match openTwice with
      | .ok r => cut r
      | .error _ => false) = true := by decide +kernel
  split at hrun
  swap
  · cases hrun
  rename_i r hr
  unfold cut at hrun
  split at hrun
  swap
  · cases hrun
  rename_i d hd
  obtain ⟨hboth, hparent⟩ := of_decide_eq_true hrun
  exact ⟨r, hr, d, hboth, hd, hparent⟩

def Twice.run (r : Twice) : List (Event × Session) :=
  let once := afterOpen (start r.boot) r.once 0
  let both := afterOpen once r.both 1
  [(.opened nameA 1 plainEnv (some 0), once), (.opened nameA 0 plainEnv (some 1), both),
    (.closed 0 plainEnv, afterClose both r.closed 0)]

theorem openTwice_exec {r : Twice} (h : openTwice = .ok r) :
    bootBlank = .ok r.boot ∧ Exec Step (start r.boot) r.run := by
  simp only [openTwice, bind_eq_ok, access_eq_ok, pure_eq_ok, Except.ok.injEq] at h
  obtain ⟨boot, hboot, ⟨fd, once⟩, honce, _, rfl, ⟨fd', both⟩, hboth, _, rfl, closed, hclosed, rfl⟩ := h
  refine ⟨hboot, .cons (.opened isName_nameA honce) (.cons (.opened isName_nameA hboth)
    (.cons (.closed ?_ hclosed) (.nil _)))⟩
  exact Finset.mem_insert_of_mem (Finset.mem_insert_self ..)

/-- `/a` and `/b` are created, and the descriptor of `/a` is closed. -/
def openBoth : Kernel Twice := do
  let boot ← bootBlank
  let (fd, once) ← sysOpen boot (rootPath nameA) 1 plainEnv
  access (fd = some 0) "fd"
  let (fd, both) ← sysOpen once (rootPath nameB) 1 plainEnv
  access (fd = some 1) "fd"
  let closed ← sysClose both 0 plainEnv
  pure ⟨boot, once, both, closed⟩

def Twice.runBoth (r : Twice) : List (Event × Session) :=
  let once := afterOpen (start r.boot) r.once 0
  let both := afterOpen once r.both 1
  [(.opened nameA 1 plainEnv (some 0), once), (.opened nameB 1 plainEnv (some 1), both),
    (.closed 0 plainEnv, afterClose both r.closed 0)]

/-- The objects that get_inode would read into hold nothing, and the dentries are two. -/
structure Apart (r : Twice) : Prop where
  first : -1 ≤ (r.boot.vol.inode (.obj (plainEnv.inodeAt r.boot.vol.inodeList))).iRefcnt
  second : -1 ≤ (r.once.vol.inode (.obj (plainEnv.inodeAt r.once.vol.inodeList))).iRefcnt
  dentries : dentryOf r.both 1 ≠ dentryOf r.both 0

theorem openBoth_run : ∃ r, openBoth = .ok r ∧ Apart r := by
  have hrun : (match openBoth with
      | .ok r => decide (-1 ≤ (r.boot.vol.inode (.obj (plainEnv.inodeAt r.boot.vol.inodeList))).iRefcnt ∧
          -1 ≤ (r.once.vol.inode (.obj (plainEnv.inodeAt r.once.vol.inodeList))).iRefcnt ∧
          dentryOf r.both 1 ≠ dentryOf r.both 0)
      | .error _ => false) = true := by decide +kernel
  split at hrun
  · rename_i r hr
    obtain ⟨hfirst, hsecond, hdentries⟩ := of_decide_eq_true hrun
    exact ⟨r, hr, hfirst, hsecond, hdentries⟩
  · cases hrun

theorem openBoth_exec {r : Twice} (h : openBoth = .ok r) :
    bootBlank = .ok r.boot ∧ Exec Step (start r.boot) r.runBoth := by
  simp only [openBoth, bind_eq_ok, access_eq_ok, pure_eq_ok, Except.ok.injEq] at h
  obtain ⟨boot, hboot, ⟨fd, once⟩, honce, _, rfl, ⟨fd', both⟩, hboth, _, rfl, closed, hclosed, rfl⟩ := h
  refine ⟨hboot, .cons (.opened isName_nameA honce) (.cons (.opened isName_nameB hboth)
    (.cons (.closed ?_ hclosed) (.nil _)))⟩
  exact Finset.mem_insert_of_mem (Finset.mem_insert_self ..)

/-- The descriptor of `/b` stays usable when the one of `/a` is closed. -/
theorem open_files_usable_both : ∃ r : Twice, Exec Step (start r.boot) r.runBoth ∧
    (last (start r.boot) r.runBoth).opened = {1} ∧ Always Usable (start r.boot) r.runBoth := by
  obtain ⟨r, hr, hapart⟩ := openBoth_run
  obtain ⟨hboot, hrun⟩ := openBoth_exec hr
  have hopened : (last (start r.boot) r.runBoth).opened = {1} := by
    show Finset.erase (insert 1 (insert 0 ∅)) 0 = ({1} : Finset (Fin nrMaxOpen))
    decide
  refine ⟨r, hrun, hopened, (open_files_usable_iff hboot hrun).mpr ⟨?_, ?_, ?_, trivial⟩⟩
  · exact fun _ => hapart.first
  · exact fun _ => hapart.second
  · intro fd hfd heq
    have hfd : fd ∈ (insert 1 (insert 0 ∅) : Finset (Fin nrMaxOpen)) := hfd
    rcases Finset.mem_insert.mp hfd with rfl | hfd
    · exact absurd heq hapart.dentries
    · exact Finset.mem_singleton.mp hfd

/-- Closing one of two descriptors of `/a` cuts the dentry of the other one off. -/
theorem close_cuts_second_descriptor : ∃ r : Twice, bootBlank = .ok r.boot ∧
    Exec Step (start r.boot) r.run ∧ 1 ∈ (last (start r.boot) r.run).opened ∧
    ¬Always Usable (start r.boot) r.run := by
  obtain ⟨r, hr, d, -, hd, hparent⟩ := openTwice_run
  obtain ⟨hboot, hrun⟩ := openTwice_exec hr
  have hopen : 1 ∈ (last (start r.boot) r.run).opened := by
    show (1 : Fin nrMaxOpen) ∈ Finset.erase (insert 1 (insert 0 ∅)) 0
    decide
  refine ⟨r, hboot, hrun, hopen, fun h => ?_⟩
  obtain ⟨d', p, hof, -, hlinked, -⟩ := h.last 1 hopen
  have hd' : d = d' := Option.some.inj (hd.symm.trans hof)
  exact hlinked (hd' ▸ hparent)

end RxdOs.Fs.OpenSafety
