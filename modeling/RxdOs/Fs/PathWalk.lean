/- RxdOs/Fs/PathWalk
   source: fs/fs.c (_open, _opendir, _close, put_dentry)
   digest: A walk that finds nothing unwinds through put_dentry and cuts root_dentry off. -/

import RxdOs.Fs.CacheReach

set_option autoImplicit false
set_option relaxedAutoImplicit false

namespace RxdOs.Fs.PathWalk

open RxdOs.Base.Assert RxdOs.Lib.Execution RxdOs.Fs.Bitmap RxdOs.Fs.Layout RxdOs.Fs.InodeCache
  RxdOs.Fs.Name RxdOs.Fs.DentryCache RxdOs.Fs.Open RxdOs.Fs.CacheReach

/-- The directory tree in memory is as it was: the cached dentries, the counts of the inodes,
and every name of the root directory can still be looked up. -/
structure TreeKept (s s' : FsState) : Prop where
  dentries : ∀ d ∈ s.dentryList, d ∈ s'.dentryList ∧
    (s'.dentry d).dParent = (s.dentry d).dParent ∧ (s'.dentry d).dInode = (s.dentry d).dInode ∧
    (s'.dentry d).dRefcnt = (s.dentry d).dRefcnt
  inodes : ∀ p ∈ s.vol.inodeList, p ∈ s'.vol.inodeList ∧
    (s'.vol.inode p).iRefcnt = (s.vol.inode p).iRefcnt
  lookups : ∀ dname env d s₁, getDentry s .root dname env = .ok (some d, s₁) →
    ∃ d' s₂, getDentry s' .root dname env = .ok (some d', s₂)

variable {s s' : FsState} {env : Env}

/-- Closing root_dentry after a failed lookup leaves it without parent and inode. -/
theorem close_root (h : Rooted s) {dname : QStr}
    (hget : getDentry (addRef s .root 1) .root dname env = .ok (none, addRef s .root 1))
    (hclose : close (addRef s .root 1) .root env = .ok s') :
    (s.dentry .root).dParent = some .root ∧ (s'.dentry .root).dParent = none ∧
      (s'.dentry .root).dInode = none := by
  obtain ⟨dir, hdir, -⟩ := getDentry_ok hget
  rw [addRef_self] at hdir
  have hparent := h.tied (by rw [hdir]; exact Option.some_ne_none dir)
  have hself : ((addRef s .root 1).dentry .root).dParent = some .root := by
    rw [addRef_self]
    exact hparent
  rw [close_eq_putDentry hself] at hclose
  obtain ⟨-, parent, p, -, -, ⟨-, rfl⟩ | ⟨-, hroot, -⟩⟩ := putDentry_ok hclose
  · refine ⟨hparent, ?_, ?_⟩
    · rw [unlinkDentry_self]
    · rw [unlinkDentry_self]
  · exact absurd rfl hroot

theorem not_treeKept (h : Rooted s) (hparent : (s.dentry .root).dParent = some .root)
    (hnone : (s'.dentry .root).dParent = none) : ¬TreeKept s s' := by
  intro hkept
  have heq := (hkept.dentries .root h.root).2.1
  rw [hparent, hnone] at heq
  cases heq

/-- In every reachable state, a failed _open or _opendir changes the tree. -/
theorem failed_walk_changes_tree {memory : FsState} {disk : Disk} {ptrs : Pointers}
    {s₀ s : FsState} (hinit : fsInit memory disk ptrs = .ok s₀) (hreach : Reach Step s₀ s)
    (path : Pathname) (env : Env) (s' : FsState) :
    (openPath s path env = .ok (none, s') → ¬TreeKept s s') ∧
      (opendir s path env = .ok (none, s') → ¬TreeKept s s') := by
  have h := Rooted.reach hinit hreach
  constructor
  · intro hopen
    obtain ⟨-, ⟨-, hr, -⟩ | ⟨-, ⟨d, hr, -⟩ | ⟨-, hget, hclose⟩⟩⟩ := openPath_ok hopen
    · cases hr
    · cases hr
    · obtain ⟨hparent, hnone, -⟩ := close_root h hget hclose
      exact not_treeKept h hparent hnone
  · intro hopen
    obtain ⟨-, ⟨-, hr, -⟩ | ⟨-, -, hget, hclose⟩⟩ := opendir_ok hopen
    · cases hr
    · obtain ⟨hparent, hnone, -⟩ := close_root h hget hclose
      exact not_treeKept h hparent hnone

/-- The path `/x`. -/
def pathX : Pathname := ⟨[slash, 120], by simp [slash]⟩

/-- On a fresh file system `/x` is not found, and root_dentry has lost its parent. -/
def lostRoot : Bool :=
  match bootBlank with
  | .ok s =>
    match openPath s pathX plainEnv with
    | .ok (none, s') =>
      decide ((s.dentry .root).dParent = some .root ∧ (s'.dentry .root).dParent = none)
    | _ => false
  | .error _ => false

theorem lostRoot_run : ∃ s s', bootBlank = .ok s ∧ openPath s pathX plainEnv = .ok (none, s') ∧
    (s.dentry .root).dParent = some .root ∧ (s'.dentry .root).dParent = none := by
  have hrun : lostRoot = true := by decide +kernel
  unfold lostRoot at hrun
  split at hrun
  · rename_i s hboot
    split at hrun
    · rename_i s' hopen
      exact ⟨s, s', hboot, hopen, of_decide_eq_true hrun⟩
    · cases hrun
  · cases hrun

theorem failed_walk_cuts_root : ∃ s s', bootBlank = .ok s ∧
    openPath s pathX plainEnv = .ok (none, s') ∧ ¬TreeKept s s' := by
  obtain ⟨s, s', hboot, hopen, hparent, hnone⟩ := lostRoot_run
  exact ⟨s, s', hboot, hopen, not_treeKept (.fsInit hboot) hparent hnone⟩

theorem failed_walk_changes_tree_x : ∃ s s', bootBlank = .ok s ∧
    openPath s pathX plainEnv = .ok (none, s') ∧ ¬TreeKept s s' := by
  obtain ⟨s, s', hboot, hopen, -⟩ := lostRoot_run
  exact ⟨s, s', hboot, hopen, (failed_walk_changes_tree hboot .refl pathX plainEnv s').1 hopen⟩

end RxdOs.Fs.PathWalk
