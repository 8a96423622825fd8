/- RxdOs/Fs/OpenBalance
   source: fs/fs.c (_opendir, sys_open, sys_close, put_dentry)
   digest: Over balanced runs of sys_open and sys_close the reference counts come back exactly
   when nothing was opened: _opendir's reference on root_dentry is never given back. -/

import Mathlib.Algebra.BigOperators.Group.Finset.Piecewise
import RxdOs.Fs.CacheReach

set_option autoImplicit false
set_option relaxedAutoImplicit false

namespace RxdOs.Fs.OpenBalance

open RxdOs.Base.Assert RxdOs.Lib.Execution RxdOs.Fs.Bitmap RxdOs.Fs.Layout RxdOs.Fs.InodeCache
  RxdOs.Fs.Name RxdOs.Fs.DentryCache RxdOs.Fs.Open RxdOs.Fs.CacheReach

/-- The caches with the descriptors that are open. -/
structure Session where
  fs : FsState
  opened : Finset (Fin nrMaxOpen)

inductive Event
  | opened (name : CStr) (flags : UInt32) (env : Env) (fd : Fin nrMaxOpen)
  | closed (fd : Fin nrMaxOpen) (env : Env)

/-- A successful sys_open of a name in the root directory, or a sys_close of an open descriptor. -/
inductive Step : Session → Event → Session → Prop
  | opened {s : Session} {name : CStr} {flags : UInt32} {env : Env} {fd : Fin nrMaxOpen}
      {fs : FsState} : IsName name → sysOpen s.fs (rootPath name) flags env = .ok (some fd, fs) →
      Step s (.opened name flags env fd) ⟨fs, insert fd s.opened⟩
  | closed {s : Session} {fd : Fin nrMaxOpen} {env : Env} {fs : FsState} : fd ∈ s.opened →
      sysClose s.fs fd env = .ok fs → Step s (.closed fd env) ⟨fs, s.opened.erase fd⟩

/-- Both caches hold the same objects with the same counts. -/
structure Restored (s s' : FsState) : Prop where
  dentries : ∀ d, d ∈ s'.dentryList ↔ d ∈ s.dentryList
  inodes : ∀ p, p ∈ s'.vol.inodeList ↔ p ∈ s.vol.inodeList
  dRefcnt : ∀ d ∈ s.dentryList, (s'.dentry d).dRefcnt = (s.dentry d).dRefcnt
  iRefcnt : ∀ p ∈ s.vol.inodeList, (s'.vol.inode p).iRefcnt = (s.vol.inode p).iRefcnt

def isOpen : Event → Bool
  | .opened .. => true
  | .closed .. => false

/-- The number of sys_open calls in a run. -/
def opens (tr : List (Event × Session)) : Nat := tr.countP fun e => isOpen e.1

/-! ## Two sums of counts -/

/-- The references to root_dentry. -/
def rootRef (s : FsState) : Int := (s.dentry .root).dRefcnt

/-- The references to all other cached dentries. -/
def refSum (s : FsState) : Int := ∑ d ∈ s.dentryList.toFinset.erase .root, (s.dentry d).dRefcnt

variable {s s' : FsState} {env : Env}

theorem refSum_congr (hlist : s'.dentryList = s.dentryList)
    (h : ∀ x ∈ s.dentryList, x ≠ .root → (s'.dentry x).dRefcnt = (s.dentry x).dRefcnt) :
    refSum s' = refSum s := by
  rw [refSum, refSum, hlist]
  refine Finset.sum_congr rfl fun x hx => ?_
  obtain ⟨hne, hmem⟩ := Finset.mem_erase.mp hx
  exact h x (List.mem_toFinset.mp hmem) hne

theorem refSum_add {d : DentryPtr} {n : Int} (hd : d ∈ s.dentryList) (hne : d ≠ .root)
    (hlist : s'.dentryList = s.dentryList) (h : ∀ x ∈ s.dentryList, x ≠ .root →
      (s'.dentry x).dRefcnt = (s.dentry x).dRefcnt + if x = d then n else 0) :
    refSum s' = refSum s + n := by
  have hsum : refSum s' = ∑ x ∈ s.dentryList.toFinset.erase .root,
      ((s.dentry x).dRefcnt + if x = d then n else 0) := by
    rw [refSum, hlist]
    refine Finset.sum_congr rfl fun x hx => ?_
    obtain ⟨hxr, hmem⟩ := Finset.mem_erase.mp hx
    exact h x (List.mem_toFinset.mp hmem) hxr
  rw [hsum, Finset.sum_add_distrib, Finset.sum_ite_eq', if_pos]
  · rfl
  · exact Finset.mem_erase.mpr ⟨hne, List.mem_toFinset.mpr hd⟩

theorem rootRef_addDentry {d : DentryPtr} {dName : DName} {p : InodePtr} (hd : d ≠ .root) :
    rootRef (addDentry s d .root dName p) = rootRef s + 1 := by
  rw [rootRef, addDentry_of_ne hd hd.symm, if_pos rfl]
  rfl

/-- A dentry that enters the cache below root_dentry brings two references. -/
theorem refSum_addDentry {d : DentryPtr} {dName : DName} {p : InodePtr} (hd : d ∉ s.dentryList)
    (hne : d ≠ .root) : refSum (addDentry s d .root dName p) = refSum s + 2 := by
  have hlist : (addDentry s d .root dName p).dentryList = d :: s.dentryList := rfl
  have hnot : d ∉ s.dentryList.toFinset.erase .root := fun hmem =>
    hd (List.mem_toFinset.mp (Finset.mem_of_mem_erase hmem))
  rw [refSum, hlist, List.toFinset_cons, Finset.erase_insert_of_ne hne, Finset.sum_insert hnot,
    addDentry_self hne, add_comm]
  refine congrArg (· + 2) (Finset.sum_congr rfl fun x hx => ?_)
  obtain ⟨hxr, hmem⟩ := Finset.mem_erase.mp hx
  have hxd : x ≠ d := fun heq => hd (heq ▸ List.mem_toFinset.mp hmem)
  rw [addDentry_of_ne hne hxd, if_neg hxr, Int.add_zero]

theorem refSum_erase {d : DentryPtr} (hnodup : s.dentryList.Nodup) {vol : Volume}
    (hzero : (s.dentry d).dRefcnt = 0) :
    refSum { s with vol := vol, dentryList := s.dentryList.erase d } = refSum s := by
  have hset : (s.dentryList.erase d).toFinset = s.dentryList.toFinset.erase d := by
    ext x
    rw [List.mem_toFinset, hnodup.mem_erase_iff, Finset.mem_erase, List.mem_toFinset]
  rw [refSum, refSum, hset, Finset.erase_right_comm]
  by_cases hd : d ∈ s.dentryList.toFinset.erase .root
  · rw [← Finset.add_sum_erase _ _ hd, hzero, zero_add]
  · rw [Finset.erase_eq_of_notMem hd]

/-! ## What one call does to the sums -/

/-- A dentry `d` that a lookup returned: one more reference on it, or, for `m = 1`, two on a
new one and one more on root_dentry. -/
structure Took (s s' : FsState) (d : DentryPtr) (m : Nat) : Prop where
  ne : d ≠ .root
  mem : d ∈ s'.dentryList
  keep : ∀ x ∈ s.dentryList, x ∈ s'.dentryList
  parent : ∀ x, x ≠ d → (s'.dentry x).dParent = (s.dentry x).dParent
  root : rootRef s' = rootRef s + m
  others : refSum s' = refSum s + (1 + m)

theorem took_addRef {d : DentryPtr} (hd : d ∈ s.dentryList) (hne : d ≠ .root) :
    Took s (addRef s d 1) d 0 where
  ne := hne
  mem := hd
  keep _ hx := hx
  parent x hx := by rw [addRef_of_ne 1 hx]
  root := by
    rw [rootRef, addRef_of_ne 1 hne.symm]
    exact (add_zero _).symm
  others := refSum_add hd hne rfl fun x _ _ => by
    rw [addRef_dentry]
    rfl

theorem took_addDentry {d : DentryPtr} (hd : d ∉ s.dentryList) (hne : d ≠ .root) (dName : DName)
    (p : InodePtr) : Took s (addDentry s d .root dName p) d 1 where
  ne := hne
  mem := List.mem_cons_self ..
  keep _ hx := List.mem_cons_of_mem _ hx
  parent x hx := by rw [addDentry_of_ne hne hx]
  root := rootRef_addDentry hne
  others := refSum_addDentry hd hne

theorem getDentry_took (h : Rooted s) {name : CStr} (hname : IsName name) {d : DentryPtr}
    (hget : getDentry s .root ⟨name.length, name⟩ env = .ok (some d, s')) :
    ∃ m, Took s s' d m := by
  obtain ⟨dir, -, ⟨d', hfind, hr, rfl⟩ | ⟨-, pos, inum, -, ⟨-, hr, -⟩ |
    ⟨-, inode, vol, d', dName, -, hobj, hd, -, hr, rfl⟩⟩⟩ := getDentry_ok hget
  · obtain rfl := Option.some.inj hr
    exact ⟨0, took_addRef (findDentry_some hfind).1 (h.find_ne_root hname hfind)⟩
  · cases hr
  · obtain rfl := Option.some.inj hr
    have hne : d ≠ .root := fun heq => hd (heq ▸ h.root)
    have htook := @took_addDentry { s with vol := vol } d hd hne dName inode
    exact ⟨1, htook.ne, htook.mem, htook.keep, htook.parent, htook.root, htook.others⟩

theorem openLast_took (h : Rooted s) {name : CStr} (hname : IsName name) {flags : UInt32}
    {d : DentryPtr} (hlast : openLast s .root ⟨name.length, name⟩ flags env = .ok (some d, s')) :
    ∃ m, Took s s' d m := by
  obtain ⟨d', hr, hget⟩ | ⟨-, ⟨-, hr, -⟩ | ⟨-, d', p, s₁, hr, hnew, hcreate⟩⟩ := openLast_ok hlast
  · obtain rfl := Option.some.inj hr
    exact getDentry_took h hname hget
  · cases hr
  · obtain rfl := Option.some.inj hr
    obtain ⟨vol, -, rfl⟩ := newInodeOf_ok hnew
    obtain ⟨_, -, hnone⟩ | ⟨-, dir, _, ret, disk, dirInode, d', dName, -, -, -, -, hd, -, hr',
      hcount⟩ := createDentry_ok hcreate
    · cases hnone
    obtain rfl := Option.some.inj hr'
    obtain ⟨disk', -, rfl⟩ := countLink_ok hcount
    have hne : d ≠ .root := fun heq => hd (heq ▸ h.root)
    have htook := took_addDentry hd hne dName p
    exact ⟨1, htook.ne, htook.mem, htook.keep, htook.parent, htook.root, htook.others⟩

/-- Putting a dentry below root_dentry takes one reference there and two from the dentry,
whether that was its last or not. -/
theorem putDentry_sums (h : Rooted s) {d : DentryPtr} (hd : d ∈ s.dentryList) (hne : d ≠ .root)
    (hparent : (s.dentry d).dParent = some .root) (hput : putDentry s d env = .ok s') :
    rootRef s' = rootRef s - 1 ∧ refSum s' = refSum s - 2 ∧ (s'.dentry d).dParent = none ∧
      (∀ x, x ≠ d → x ∈ s.dentryList → x ∈ s'.dentryList) ∧
      ∀ x, x ≠ d → (s'.dentry x).dParent = (s.dentry x).dParent := by
  obtain ⟨-, parent, p, hparent', -, hcases⟩ := putDentry_ok hput
  obtain rfl : DentryPtr.root = parent := Option.some.inj (hparent.symm.trans hparent')
  have hroot : rootRef (unlinkDentry s d .root p) = rootRef s - 1 := by
    rw [rootRef, unlinkDentry_of_ne hne.symm, if_pos rfl]
    rfl
  have hsum : refSum (unlinkDentry s d .root p) = refSum s + -2 := by
    refine refSum_add hd hne rfl fun x _ hx => ?_
    by_cases hxd : x = d
    · rw [hxd, unlinkDentry_self, if_neg hne.symm, if_pos rfl]
      rfl
    · rw [unlinkDentry_of_ne hxd, if_neg hx, if_neg hxd]
      simp
  have hself : ((unlinkDentry s d .root p).dentry d).dParent = none := by
    rw [unlinkDentry_self]
  have hother : ∀ x, x ≠ d →
      ((unlinkDentry s d .root p).dentry x).dParent = (s.dentry x).dParent := fun x hx => by
    rw [unlinkDentry_of_ne hx]
  obtain ⟨-, rfl⟩ | ⟨hzero, -, vol, -, rfl⟩ := hcases
  · exact ⟨hroot, hsum, hself, fun x _ hx => hx, hother⟩
  · have hlast : ((unlinkDentry s d .root p).dentry d).dRefcnt = 0 := by
      rw [unlinkDentry_self]
      exact hzero
    have herase := @refSum_erase (unlinkDentry s d .root p) d h.nodup vol hlast
    exact ⟨hroot, herase.trans hsum, hself, fun x hx hmem => (List.mem_erase_of_ne hx).mpr hmem,
      hother⟩

/-! ## Runs -/

/-- After `n` calls of sys_open: `m` of them brought a dentry into the cache, and the counts
show each of them, the closes, and the reference each sys_open keeps on root_dentry. -/
structure Counted (s₀ : FsState) (s : Session) (n : Nat) : Prop where
  rooted : Rooted s.fs
  handles : Handles s.fs s.opened
  listed : ∀ fd ∈ s.opened, ∀ d, dentryOf s.fs fd = some d →
    d ≠ .root ∧ (d ∈ s.fs.dentryList ∨ (s.fs.dentry d).dParent = none)
  counts : ∃ m c : Nat, n = c + s.opened.card ∧ rootRef s.fs = rootRef s₀ + n + m - c ∧
    refSum s.fs = refSum s₀ + n + m - 2 * c

variable {s₀ : FsState}

theorem Counted.open {s : Session} {n : Nat} (h : Counted s₀ s n) {name : CStr}
    (hname : IsName name) {flags : UInt32} {fd : Fin nrMaxOpen} {fs : FsState}
    (hopen : sysOpen s.fs (rootPath name) flags env = .ok (some fd, fs)) :
    Counted s₀ ⟨fs, insert fd s.opened⟩ (n + 1) := by
  obtain ⟨f, d, s₁, hfill, -, hlast, rfl⟩ := sysOpen_name hname hopen
  have hbefore : Rooted (addRef (withSlot s.fs fd f flags) .root 1) :=
    (h.rooted.withSlot hfill.fresh fd flags).addRef .root 1
  obtain ⟨m', htook⟩ := openLast_took hbefore hname hlast
  refine ⟨h.rooted.sysOpen hopen, h.handles.fill hfill, ?_, ?_⟩
  · intro fd' hfd' x hx
    rcases Finset.mem_insert.mp hfd' with rfl | hmem
    · obtain rfl := Option.some.inj (hfill.dentryOf_self.symm.trans hx)
      exact ⟨htook.ne, .inl htook.mem⟩
    · obtain ⟨hxr, hlist⟩ := h.listed fd' hmem x ((hfill.dentryOf_old h.handles hmem).symm.trans hx)
      refine ⟨hxr, ?_⟩
      by_cases hxd : x = d
      · exact .inl (hxd ▸ htook.mem)
      · refine hlist.imp (htook.keep x) fun hnone => ?_
        rw [show (s₁.setFile f _).dentry = s₁.dentry from rfl, htook.parent x hxd, addRef_dentry]
        exact hnone
  · obtain ⟨m, c, hn, hroot, hsum⟩ := h.counts
    have hroot₁ : rootRef (addRef (withSlot s.fs fd f flags) .root 1) = rootRef s.fs + 1 := by
      rw [rootRef, addRef_self]
      rfl
    have hsum₁ : refSum (addRef (withSlot s.fs fd f flags) .root 1) = refSum s.fs :=
      refSum_congr rfl fun x _ hx => by
        rw [addRef_of_ne 1 hx]
        rfl
    have hroot₂ : rootRef s₁ = rootRef s.fs + 1 + m' := hroot₁ ▸ htook.root
    have hsum₂ : refSum s₁ = refSum s.fs + (1 + m') := hsum₁ ▸ htook.others
    refine ⟨m + m', c, ?_, ?_, ?_⟩
    · rw [Finset.card_insert_of_notMem (h.handles.not_mem hfill.slot)]
      omega
    · rw [show rootRef (s₁.setFile f _) = rootRef s₁ from rfl, hroot₂, hroot]
      push_cast
      ring
    · rw [show refSum (s₁.setFile f _) = refSum s₁ from rfl, hsum₂, hsum]
      push_cast
      ring

theorem Counted.close {s : Session} {n : Nat} (h : Counted s₀ s n) {fd : Fin nrMaxOpen}
    (hfd : fd ∈ s.opened) {fs : FsState} (hclose : sysClose s.fs fd env = .ok fs) :
    Counted s₀ ⟨fs, s.opened.erase fd⟩ n := by
  obtain ⟨d, s₁, hd, hput, -, hdentry, hlist, hhandles, hof⟩ := h.handles.sysClose hfd hclose
  obtain ⟨hne, hmem⟩ := h.listed fd hfd d hd
  -- put_dentry needs a parent, so the dentry is still cached below root_dentry
  have hlinked : (s.fs.dentry d).dParent ≠ none := by
    simp only [DentryCache.close, bind_eq_ok] at hput
    obtain ⟨s₂, hput, -⟩ := hput
    obtain ⟨-, parent, p, hparent, -⟩ := putDentry_ok hput
    rw [hparent]
    exact Option.some_ne_none parent
  have hin := hmem.resolve_right hlinked
  have hparent := (h.rooted.flat d hin hne).resolve_left hlinked
  rw [close_eq_putDentry hparent] at hput
  obtain ⟨hroot, hsum, hself, hkeep, hother⟩ := putDentry_sums h.rooted hin hne hparent hput
  refine ⟨h.rooted.sysClose hclose, hhandles, ?_, ?_⟩
  · intro fd' hfd' x hx
    obtain ⟨hxr, hxlist⟩ := h.listed fd' (Finset.mem_of_mem_erase hfd') x ((hof fd').symm.trans hx)
    refine ⟨hxr, ?_⟩
    rw [hlist, hdentry]
    by_cases hxd : x = d
    · exact .inr (hxd ▸ hself)
    · exact hxlist.imp (hkeep x hxd) fun hnone => (hother x hxd).trans hnone
  · obtain ⟨m, c, hn, hroot₀, hsum₀⟩ := h.counts
    have hcard : (s.opened.erase fd).card + 1 = s.opened.card := Finset.card_erase_add_one hfd
    have hroot' : rootRef fs = rootRef s₁ := by rw [rootRef, rootRef, hdentry]
    have hsum' : refSum fs = refSum s₁ := by rw [refSum, refSum, hdentry, hlist]
    refine ⟨m, c + 1, ?_, ?_, ?_⟩
    · show n = c + 1 + (s.opened.erase fd).card
      omega
    · rw [hroot', hroot, hroot₀]
      push_cast
      ring
    · rw [hsum', hsum, hsum₀]
      push_cast
      ring

theorem Counted.run {s : Session} {n : Nat} (h : Counted s₀ s n) {tr : List (Event × Session)}
    (hrun : Exec Step s tr) : Counted s₀ (last s tr) (n + opens tr) := by
  induction hrun generalizing n with
  | nil s => simpa [opens] using h
  | @cons s s' a tr st _ ih =>
    have hopens : opens ((a, s') :: tr) = opens tr + if isOpen a then 1 else 0 := by
      simp [opens, List.countP_cons]
    rw [last_cons, hopens]
    cases st with
    | opened hname hopen =>
      have hnext := ih (h.open hname hopen)
      simp only [isOpen, if_true]
      rwa [Nat.add_assoc, Nat.add_comm 1] at hnext
    | closed hfd hclose =>
      have hnext := ih (h.close hfd hclose)
      simpa [isOpen] using hnext

/-- After a run of sys_opens and sys_closes that leaves nothing open, both caches hold the
same objects with the same counts exactly when there was no sys_open in it. -/
theorem open_close_balance_iff {memory : FsState} {disk : Disk} {ptrs : Pointers}
    {s₀ : FsState} (hinit : fsInit memory disk ptrs = .ok s₀) (hreach : Reach CacheReach.Step s₀ s)
    {tr : List (Event × Session)} (hrun : Exec Step ⟨s, ∅⟩ tr)
    (hend : (last ⟨s, ∅⟩ tr).opened = ∅) :
    Restored s (last ⟨s, ∅⟩ tr).fs ↔ opens tr = 0 := by
  have hstart : Counted s ⟨s, ∅⟩ 0 := by
    have h := Rooted.reach hinit hreach
    refine ⟨h, ⟨?_, ?_, h.files⟩, ?_, 0, 0, ?_⟩
    · intro fd hfd
      exact absurd hfd (Finset.notMem_empty fd)
    · intro fd hfd
      exact absurd hfd (Finset.notMem_empty fd)
    · intro fd hfd
      exact absurd hfd (Finset.notMem_empty fd)
    · simp
  constructor
  · intro h
    obtain ⟨m, c, hn, hroot, hsum⟩ := (hstart.run hrun).counts
    rw [hend, Finset.card_empty] at hn
    have hroot' : rootRef (last ⟨s, ∅⟩ tr).fs = rootRef s := h.dRefcnt .root hstart.rooted.root
    have hset : (last ⟨s, ∅⟩ tr).fs.dentryList.toFinset = s.dentryList.toFinset := by
      ext d
      rw [List.mem_toFinset, List.mem_toFinset, h.dentries d]
    have hsum' : refSum (last ⟨s, ∅⟩ tr).fs = refSum s := by
      rw [refSum, refSum, hset]
      refine Finset.sum_congr rfl fun d hd => ?_
      exact h.dRefcnt d (List.mem_toFinset.mp (Finset.mem_of_mem_erase hd))
    omega
  · intro hnone
    cases hrun with
    | nil => exact ⟨fun _ => Iff.rfl, fun _ => Iff.rfl, fun _ _ => rfl, fun _ _ => rfl⟩
    | cons st _ =>
      cases st with
      | opened => simp [opens, isOpen] at hnone
      | closed hfd => exact absurd hfd (Finset.notMem_empty _)

/-! ## Opening and closing a file that exists -/

def nameA : CStr := [97]

/-- A fresh file system on which `/a` was created and closed. -/
def withFileA : Kernel FsState := do
  let s ← bootBlank
  let s ← CacheReach.call s (.open (rootPath nameA) 1 plainEnv)
  CacheReach.call s (.close 0 plainEnv)

/-- `open("/a")`, then `close` of the descriptor it returns. -/
def reopenA (s : FsState) : Kernel (FsState × FsState) := do
  let (fd, s₁) ← sysOpen s (rootPath nameA) 0 plainEnv
  access (fd = some 1) "fd"
  let s₂ ← sysClose s₁ 1 plainEnv
  pure (s₁, s₂)

/-- The run from a state without open descriptors. -/
def reopenRun (s₁ s₂ : FsState) : List (Event × Session) :=
  [(.opened nameA 0 plainEnv 1, ⟨s₁, {1}⟩), (.closed 1 plainEnv, ⟨s₂, ∅⟩)]

theorem reopenA_run : ∃ s₀ s s₁ s₂, bootBlank = .ok s₀ ∧ Reach CacheReach.Step s₀ s ∧
    Exec Step ⟨s, ∅⟩ (reopenRun s₁ s₂) ∧ s.dentryList = s₂.dentryList ∧
    rootRef s₂ = rootRef s + 1 := by
  have hrun : (match withFileA with
      | .ok s =>
        match reopenA s with
        | .ok (_, s₂) => decide (s.dentryList = s₂.dentryList ∧ rootRef s₂ = rootRef s + 1)
        | .error _ => false
      | .error _ => false) = true := by decide +kernel
  split at hrun
  swap
  · cases hrun
  rename_i s hs
  split at hrun
  swap
  · cases hrun
  rename_i s₁ s₂ hreopen
  obtain ⟨hlist, hroot⟩ := of_decide_eq_true hrun
  simp only [withFileA, bind_eq_ok] at hs
  obtain ⟨s₀, hboot, sa, hopen, hclose⟩ := hs
  simp only [reopenA, bind_eq_ok, access_eq_ok, pure_eq_ok, Except.ok.injEq, Prod.mk.injEq] at hreopen
  obtain ⟨⟨fd, s₁'⟩, hopen', _, rfl, s₂', hclose', rfl, rfl⟩ := hreopen
  have hreach : Reach CacheReach.Step s₀ s := (Relation.ReflTransGen.single ⟨_, hopen⟩).tail ⟨_, hclose⟩
  have hname : IsName nameA := by
    intro c hc
    rw [List.mem_singleton.mp hc]
    decide
  refine ⟨s₀, s, s₁', s₂', hboot, hreach, .cons (.opened hname hopen') ?_, hlist, hroot⟩
  exact .cons (.closed (Finset.mem_singleton_self 1) hclose') (.nil _)

/-- With `/a` in the directory: the counts are what they were as long as nothing is called, and
are not once `/a` has been opened and closed. -/
theorem open_close_balance_reopen : ∃ s s₁ s₂, Exec Step ⟨s, ∅⟩ (reopenRun s₁ s₂) ∧
    Restored s (last ⟨s, ∅⟩ ([] : List (Event × Session))).fs ∧
    ¬Restored s (last ⟨s, ∅⟩ (reopenRun s₁ s₂)).fs := by
  obtain ⟨s₀, s, s₁, s₂, hboot, hreach, hrun, -⟩ := reopenA_run
  have hnil : Exec Step ⟨s, ∅⟩ [] := .nil _
  have hempty := (open_close_balance_iff hboot hreach hnil rfl).mpr rfl
  refine ⟨s, s₁, s₂, hrun, hempty, fun h => ?_⟩
  have hnone := (open_close_balance_iff hboot hreach hrun rfl).mp h
  have hone : opens (reopenRun s₁ s₂) = 1 := rfl
  omega

/-- Opening and closing an existing file once leaves one reference too many on root_dentry. -/
theorem root_reference_leaks : ∃ s₀ s s₁ s₂, bootBlank = .ok s₀ ∧ Reach CacheReach.Step s₀ s ∧
    Exec Step ⟨s, ∅⟩ (reopenRun s₁ s₂) ∧ (last ⟨s, ∅⟩ (reopenRun s₁ s₂)).opened = ∅ ∧
    ¬Restored s s₂ := by
  obtain ⟨s₀, s, s₁, s₂, hboot, hreach, hrun, -, hroot⟩ := reopenA_run
  refine ⟨s₀, s, s₁, s₂, hboot, hreach, hrun, rfl, fun h => ?_⟩
  have hsame : rootRef s₂ = rootRef s := h.dRefcnt .root (Rooted.reach hboot hreach).root
  omega

end RxdOs.Fs.OpenBalance
