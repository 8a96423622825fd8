/- RxdOs/Fs/WriteThrough
   source: fs/fs.c (sys_open, sys_close, sys_read, sys_write, sys_lseek, sys_truncate)
   digest: Along runs of the file calls every inode in memory is as its record on the disk says,
   exactly as long as no sys_truncate cuts a file. -/

import RxdOs.Fs.AliasLists
import RxdOs.Fs.FileIo
import RxdOs.Fs.InodeTable
import RxdOs.Fs.OpenSafety

set_option autoImplicit false
set_option relaxedAutoImplicit false

namespace RxdOs.Fs.WriteThrough

open RxdOs.Base.Assert RxdOs.Base.Int32 RxdOs.Lib.Execution RxdOs.Fs.Bitmap RxdOs.Fs.Layout
  RxdOs.Fs.Zone RxdOs.Fs.ZoneMap RxdOs.Fs.InodeCache RxdOs.Fs.InodeRecord RxdOs.Fs.InodeRegion
  RxdOs.Fs.InodeTable RxdOs.Fs.Name RxdOs.Fs.Dir RxdOs.Fs.DentryCache RxdOs.Fs.Open
  RxdOs.Fs.CacheReach RxdOs.Fs.FileIo

open RxdOs.Fs.Message (Found cleared withPage withPage_eq_ok)

/-! ## The calls -/

/-- The position and the inode that a file object and its dentry lead to. -/
def behind (s : FsState) (f : Nat) (p : InodePtr) : OpenFile :=
  ⟨s.vol.disk, s.vol.inode p, (s.file f).fPos⟩

/-- What a read or a write has made of them. -/
def putBack (s : FsState) (f : Nat) (p : InodePtr) (o : OpenFile) : FsState :=
  { s.setFile f { s.file f with fPos := o.fPos } with
    vol := { s.vol.setInode p o.inode with disk := o.disk } }

/-- sys_read through the descriptor table; a loop without a round does not look at the inode. -/
def sysRead (fuel : Nat) (s : FsState) (fd : Fin nrMaxOpen) (count : Int)
    (found : Found) (usr : Nat → UInt8) : Kernel (Int × FsState) := do
  let f ← deref (s.filp fd) "filp->f_dentry"
  let d ← deref (s.file f).fDentry "filp->f_dentry->d_inode"
  if count = 0 then withPage found (pure (0, s))
  else do
    let p ← deref (s.dentry d).dInode "inode->i_size"
    let (ret, _, o) ← FileIo.sysRead fuel (behind s f p) count found usr
    pure (ret, putBack s f p o)

/-- sys_write through the descriptor table. -/
def sysWrite (fuel : Nat) (s : FsState) (fd : Fin nrMaxOpen) (count : Int)
    (found : Found) (usr : Nat → UInt8) (ptrs : Pointers) : Kernel (Int × FsState) := do
  let f ← deref (s.filp fd) "filp->f_dentry"
  let d ← deref (s.file f).fDentry "filp->f_dentry->d_inode"
  if count = 0 then withPage found (pure (0, s))
  else do
    let p ← deref (s.dentry d).dInode "inode->i_size"
    let (ret, o) ← FileIo.sysWrite fuel (behind s f p) count found usr ptrs
    pure (ret, putBack s f p o)

def setPos (s : FsState) (f : Nat) (pos : Int) : FsState :=
  s.setFile f { s.file f with fPos := pos }

/-- sys_lseek; only SEEK_END looks at the inode. -/
def sysLseek (s : FsState) (fd : Fin nrMaxOpen) (offset whence : Int) : Kernel (Int × FsState) := do
  let f ← deref (s.filp fd) "filp->f_pos"
  if whence = seekSet then pure (offset, setPos s f offset)
  else if whence = seekCur then
    let pos := wrap ((s.file f).fPos + offset)
    pure (pos, setPos s f pos)
  else if whence = seekEnd then do
    let d ← deref (s.file f).fDentry "filp->f_dentry->d_inode"
    let p ← deref (s.dentry d).dInode "inode->i_size"
    let pos := wrap ((s.vol.inode p).iSize + offset)
    pure (pos, setPos s f pos)
  else pure (-1, s)

inductive Call
  | open (pathname : CStr) (flags : UInt32) (env : Env)
  | close (fd : Fin nrMaxOpen) (env : Env)
  | truncate (pathname : CStr) (length : Int) (env : Env)
  | read (fd : Fin nrMaxOpen) (count : BitVec 32) (found : Found) (usr : Nat → UInt8)
  | write (fd : Fin nrMaxOpen) (count : BitVec 32) (found : Found) (usr : Nat → UInt8) (ptrs : Pointers)
  | lseek (fd : Fin nrMaxOpen) (offset whence : BitVec 32)

/-- The call, for at most `fuel` rounds of a read or write loop. -/
def call (fuel : Nat) (s : FsState) : Call → Kernel FsState
  | .open pathname flags env => do
    let (_, s) ← sysOpen s pathname flags env
    pure s
  | .close fd env => sysClose s fd env
  | .truncate pathname length env => do
    let (_, s) ← sysTruncate s pathname length env
    pure s
  | .read fd count found usr => do
    let (_, s) ← sysRead fuel s fd count.toNat found usr
    pure s
  | .write fd count found usr ptrs => do
    let (_, s) ← sysWrite fuel s fd count.toNat found usr ptrs
    pure s
  | .lseek fd offset whence => do
    let (_, s) ← sysLseek s fd offset.toInt whence.toInt
    pure s

/-- A call that returns. -/
def Step (s : FsState) (a : Call) (s' : FsState) : Prop := ∃ fuel, call fuel s a = .ok s'

/-! ## What a call should keep -/

/-- The records of the listed inodes hold what these have in memory, and no record in use names a
free block. -/
structure WrittenThrough (s : FsState) : Prop where
  size : ∀ p ∈ s.vol.inodeList,
    (stored s.vol.disk (s.vol.inode p).iInum).iSize = (s.vol.inode p).iSize
  nlink : ∀ p ∈ s.vol.inodeList,
    (stored s.vol.disk (s.vol.inode p).iInum).iNlink = (s.vol.inode p).iNlink
  zone : ∀ p ∈ s.vol.inodeList,
    (stored s.vol.disk (s.vol.inode p).iInum).iZone = (s.vol.inode p).iZone
  taken : ∀ n, Used s.vol.disk n → ∀ k, ZoneBit s.vol.disk ((stored s.vol.disk n).iZone k)

/-- The lookup of `dname` reads no inode in, or reads it into memory without a negative count. -/
def Spare (s : FsState) (dname : QStr) (env : Env) : Prop :=
  AliasLists.ReadsIn (addRef s .root 1) .root dname env →
    0 ≤ (s.vol.inode (AliasLists.nextInode s env)).iRefcnt

/-- Neither dentry_list nor the root directory has the name. -/
def Missing (s : FsState) (dname : QStr) (env : Env) : Prop :=
  findDentry (addRef s .root 1) .root dname = none ∧
    ∃ pos inum, lookupDisk s .root dname env = .ok (pos, inum) ∧ pos < 0

/-- Memory is fit for the inode a lookup reads in, sys_open finds a number of the inode table for
a file it creates, and sys_write goes to a descriptor that is not closed. -/
def Ready (s : FsState) : Call → Prop
  | .open pathname flags env => ∀ path, kernelString pathname = .ok path →
      Spare s (lastName path) env ∧ (oCreat flags = true → Missing s (lastName path) env →
        ∃ n < tableSize, ¬InodeBit s.vol.disk n)
  | .truncate pathname _ env => ∀ path, kernelString pathname = .ok path →
      Spare s (pathFirst (rest path)) env
  | .write fd _ _ _ _ => ∀ f, s.filp fd = some f → f ∈ s.files
  | .close _ _ | .read _ _ _ _ | .lseek _ _ _ => True

/-- i_size of the file that _open gets to. -/
def sizeAt (s : FsState) (path : Pathname) (env : Env) : Option Int :=
  if rest path = [] then (s.dentry .root).dInode.map fun p => (s.vol.inode p).iSize
  else match findDentry s .root (pathFirst (rest path)) with
    | some d => (s.dentry d).dInode.map fun p => (s.vol.inode p).iSize
    | none => match lookupDisk s .root (pathFirst (rest path)) env with
      | .ok (pos, inum) => if pos < 0 then none else some (stored s.vol.disk inum).iSize
      | .error _ => none

/-- A sys_truncate does not cut the file. -/
def Whole (s : FsState) : Call → Prop
  | .truncate pathname length env => ∀ path size, kernelString pathname = .ok path →
      sizeAt (addRef s .root 1) path env = some size → size ≤ length
  | .open _ _ _ | .close _ _ | .read _ _ _ _ | .write _ _ _ _ _ | .lseek _ _ _ => True

/-! ## The references on an inode -/

/-- What dentries have counted on `p`: two references for each one below root_dentry, and one for
root_dentry itself. -/
def held (s : FsState) (p : InodePtr) : Int :=
  2 * (OpenSafety.links s p).card + if (s.dentry .root).dInode = some p then 1 else 0

/-- Inodes in memory are as on the disk, every dentry hangs on one of them, and none of them can go
before its dentries. -/
structure Cached (s : FsState) : Prop where
  through : Through s.vol
  rooted : Rooted s
  linked : ∀ d ∈ s.dentryList, ∀ p, (s.dentry d).dInode = some p → p ∈ s.vol.inodeList
  top : ∀ p, (s.dentry .root).dInode = some p → p = .root
  counts : ∀ p ∈ s.vol.inodeList, held s p ≤ (s.vol.inode p).iRefcnt

variable {s s' : FsState} {env : Env} {d : DentryPtr} {p q : InodePtr} {f : Nat}

section Held

variable {dName : DName} {parent : DentryPtr}

theorem held_congr (hlist : s'.dentryList = s.dentryList)
    (hinode : ∀ x, (s'.dentry x).dInode = (s.dentry x).dInode) (q : InodePtr) :
    held s' q = held s q := by
  rw [held, held, OpenSafety.links_congr hlist hinode, hinode]

theorem held_nonneg (s : FsState) (q : InodePtr) : 0 ≤ held s q := by
  rw [held]
  split_ifs
  · omega
  · omega

/-- Nothing is held on an inode that is not listed. -/
theorem Cached.held_fresh (h : Cached s) (hp : p ∉ s.vol.inodeList) : held s p = 0 := by
  have hnone : OpenSafety.links s p = ∅ := by
    apply Finset.eq_empty_of_forall_notMem
    intro x hx
    obtain ⟨hmem, -, hlink⟩ := OpenSafety.mem_links.mp hx
    exact hp (h.linked x hmem p hlink)
  have hroot : (s.dentry .root).dInode ≠ some p := fun hlink =>
    hp (h.linked .root h.rooted.root p hlink)
  rw [held, hnone, if_neg hroot, Finset.card_empty]
  rfl

theorem held_addDentry (hd : d ∉ s.dentryList) (hroot : d ≠ .root) (q : InodePtr) :
    held (addDentry s d .root dName p) q = held s q + if q = p then 2 else 0 := by
  have hinode : ∀ x, ((addDentry s d .root dName p).dentry x).dInode =
      if x = d then some p else (s.dentry x).dInode := AliasLists.addDentry_dInode hroot
  have htop : ((addDentry s d .root dName p).dentry .root).dInode = (s.dentry .root).dInode := by
    rw [hinode, if_neg hroot.symm]
  by_cases hq : q = p
  · have hlinks : OpenSafety.links (addDentry s d .root dName p) q =
        insert d (OpenSafety.links s q) := by
      ext x
      rw [Finset.mem_insert, OpenSafety.mem_links, OpenSafety.mem_links, hinode]
      show x ∈ d :: s.dentryList ∧ _ ↔ _
      by_cases hx : x = d
      · simp [hx, hroot, hq]
      · simp [hx]
    have hnew : d ∉ OpenSafety.links s q := fun hmem => hd (OpenSafety.mem_links.mp hmem).1
    rw [held, held, hlinks, Finset.card_insert_of_notMem hnew, htop, if_pos hq]
    push_cast
    ring
  · have hlinks : OpenSafety.links (addDentry s d .root dName p) q = OpenSafety.links s q := by
      ext x
      rw [OpenSafety.mem_links, OpenSafety.mem_links, hinode]
      show x ∈ d :: s.dentryList ∧ _ ↔ _
      by_cases hx : x = d
      · simp [hx, hd, Ne.symm hq]
      · simp [hx]
    rw [held, held, hlinks, htop, if_neg hq, add_zero]

/-- Unlinking a dentry takes what it held. -/
theorem held_unlinkDentry (hd : d ∈ s.dentryList) (hp : (s.dentry d).dInode = some p)
    (q : InodePtr) : held (unlinkDentry s d parent p) q =
      held s q - if q = p then (if d = .root then 1 else 2) else 0 := by
  have hinode : ∀ x, ((unlinkDentry s d parent p).dentry x).dInode =
      if x = d then none else (s.dentry x).dInode := by
    intro x
    by_cases hx : x = d
    · rw [if_pos hx, hx, unlinkDentry_self]
    · rw [if_neg hx, unlinkDentry_of_ne hx]
  have hlinks : OpenSafety.links (unlinkDentry s d parent p) q =
      (OpenSafety.links s q).erase d := by
    ext x
    rw [Finset.mem_erase, OpenSafety.mem_links, OpenSafety.mem_links, hinode]
    show x ∈ s.dentryList ∧ _ ↔ _
    by_cases hx : x = d
    · simp [hx]
    · simp [hx]
  by_cases hroot : d = .root
  · subst hroot
    have hnot : DentryPtr.root ∉ OpenSafety.links s q := fun hmem =>
      (OpenSafety.mem_links.mp hmem).2.1 rfl
    rw [held, held, hlinks, Finset.erase_eq_of_notMem hnot, hinode, if_pos rfl, hp]
    by_cases hq : q = p
    · simp [hq]
    · simp [hq, Ne.symm hq]
  · have htop : ((unlinkDentry s d parent p).dentry .root).dInode = (s.dentry .root).dInode := by
      rw [hinode, if_neg (Ne.symm hroot)]
    by_cases hq : q = p
    · have hmem : d ∈ OpenSafety.links s q := OpenSafety.mem_links.mpr ⟨hd, hroot, by rw [hp, hq]⟩
      have hcard : (OpenSafety.links s q).card = ((OpenSafety.links s q).erase d).card + 1 :=
        (Finset.card_erase_add_one hmem).symm
      rw [held, held, hlinks, htop, if_pos hq, if_neg hroot, hcard]
      push_cast
      ring
    · have hnot : d ∉ OpenSafety.links s q := by
        intro hmem
        have hlink := (OpenSafety.mem_links.mp hmem).2.2
        rw [hp] at hlink
        exact hq (Option.some.inj hlink).symm
      rw [held, held, hlinks, Finset.erase_eq_of_notMem hnot, htop, if_neg hq, sub_zero]

/-- A linked dentry holds its inode. -/
theorem held_of_link (hd : d ∈ s.dentryList) (hp : (s.dentry d).dInode = some p) :
    (if d = .root then 1 else 2) ≤ held s p := by
  have hleft := held_nonneg (unlinkDentry s d .root p) p
  rw [held_unlinkDentry hd hp, if_pos rfl] at hleft
  omega

end Held

/-! ## What the operations on dentries keep -/

section Dentries

variable {dname : QStr} {dName : DName} {r : Option DentryPtr}

/-- Only the lists, the links and the inodes matter. -/
theorem Cached.congr (h : Cached s) (hrooted : Rooted s') (hlist : s'.dentryList = s.dentryList)
    (hinode : ∀ x, (s'.dentry x).dInode = (s.dentry x).dInode) (hvol : s'.vol = s.vol) :
    Cached s' := by
  refine ⟨hvol ▸ h.through, hrooted, fun x hx q hq => ?_, fun q hq => ?_, fun q hq => ?_⟩
  · rw [hlist] at hx
    rw [hinode] at hq
    rw [hvol]
    exact h.linked x hx q hq
  · rw [hinode] at hq
    exact h.top q hq
  · rw [held_congr hlist hinode, hvol]
    exact h.counts q (hvol ▸ hq)

/-- The inodes change, and stay listed and counted. -/
theorem Cached.volume (h : Cached s) {vol : Volume} (hthrough : Through vol)
    (hlist : ∀ q ∈ s.vol.inodeList, q ∈ vol.inodeList)
    (hcounts : ∀ q ∈ vol.inodeList, held s q ≤ (vol.inode q).iRefcnt) :
    Cached { s with vol := vol } :=
  ⟨hthrough, h.rooted.same rfl rfl rfl, fun x hx q hq => hlist q (h.linked x hx q hq), h.top,
    hcounts⟩

/-- An inode is replaced that keeps its count. -/
theorem Cached.setInode (h : Cached s) {inode : Inode} {disk : Disk}
    (hthrough : Through { s.vol.setInode p inode with disk := disk })
    (hcount : inode.iRefcnt = (s.vol.inode p).iRefcnt) :
    Cached { s with vol := { s.vol.setInode p inode with disk := disk } } := by
  refine h.volume hthrough (fun q hq => hq) fun q hq => ?_
  show held s q ≤ (Function.update s.vol.inode p inode q).iRefcnt
  by_cases hqp : q = p
  · rw [hqp, Function.update_self, hcount]
    exact h.counts p (hqp ▸ hq)
  · rw [Function.update_of_ne hqp]
    exact h.counts q hq

theorem Cached.addRef (h : Cached s) (d : DentryPtr) (n : Int) : Cached (addRef s d n) := by
  refine h.congr (h.rooted.addRef d n) rfl (fun x => ?_) rfl
  rw [addRef_dentry]

/-- References on inodes change. -/
theorem Through.addInodeRef (h : Through s.vol) (n : Int)
    (hcount : p ∈ s.vol.inodeList → p ≠ .root → 0 < (s.vol.inode p).iRefcnt + n) :
    Through (addInodeRef s p n).vol := by
  refine h.recount rfl rfl (fun q _ => ?_) fun q hq hroot => ?_
  · rw [addInodeRef_inode]
    rfl
  · rw [addInodeRef_inode]
    show 0 < (s.vol.inode q).iRefcnt + _
    split_ifs with hqp
    · subst hqp
      exact hcount hq hroot
    · rw [add_zero]
      exact h.counted q hq hroot

/-- A new dentry is linked to an inode that has a reference to spare. -/
theorem Cached.addDentry (h : Cached s) (hd : d ∉ s.dentryList) (hp : p ∈ s.vol.inodeList)
    (hmore : held s p < (s.vol.inode p).iRefcnt) : Cached (addDentry s d .root dName p) := by
  have hroot : d ≠ .root := fun heq => hd (heq ▸ h.rooted.root)
  have hinode : ∀ x, ((DentryCache.addDentry s d .root dName p).dentry x).dInode =
      if x = d then some p else (s.dentry x).dInode := AliasLists.addDentry_dInode hroot
  have hpos : 0 < (s.vol.inode p).iRefcnt + 1 := by
    have hnonneg := held_nonneg s p
    omega
  refine ⟨Through.addInodeRef h.through 1 fun _ _ => hpos, h.rooted.addDentry hd dName p,
    fun x hx q hq => ?_, fun q hq => ?_, fun q hq => ?_⟩
  · rw [hinode] at hq
    split_ifs at hq with hxd
    · exact Option.some.inj hq ▸ hp
    · exact h.linked x ((List.mem_cons.mp hx).resolve_left hxd) q hq
  · rw [hinode, if_neg hroot.symm] at hq
    exact h.top q hq
  · rw [held_addDentry hd hroot, addDentry_inode]
    have hcount := h.counts q hq
    show held s q + _ ≤ (s.vol.inode q).iRefcnt + _
    split_ifs with hqp
    · rw [hqp]
      omega
    · omega

/-- Unlinking a dentry leaves a reference more on its inode than dentries hold. -/
theorem Cached.unlinkDentry (h : Cached s) (hd : d ∈ s.dentryList)
    (hp : (s.dentry d).dInode = some p) (parent : DentryPtr) :
    Cached (unlinkDentry s d parent p) ∧ (d ≠ .root →
      held (unlinkDentry s d parent p) p < ((unlinkDentry s d parent p).vol.inode p).iRefcnt) := by
  have hmem := h.linked d hd p hp
  have hheld := held_of_link hd hp
  have hcount := h.counts p hmem
  have hdp : d = .root → p = .root := fun heq => h.top p (heq ▸ hp)
  have hinode : ∀ x, ((DentryCache.unlinkDentry s d parent p).dentry x).dInode =
      if x = d then none else (s.dentry x).dInode := by
    intro x
    by_cases hx : x = d
    · rw [if_pos hx, hx, unlinkDentry_self]
    · rw [if_neg hx, unlinkDentry_of_ne hx]
  refine ⟨⟨?_, h.rooted.unlinkDentry d parent p, fun x hx q hq => ?_, fun q hq => ?_,
    fun q hq => ?_⟩, fun hroot => ?_⟩
  · refine h.through.recount rfl rfl (fun q _ => ?_) fun q hq hqr => ?_
    · rw [unlinkDentry_inode]
      rfl
    · rw [unlinkDentry_inode]
      show 0 < (s.vol.inode q).iRefcnt - _
      split_ifs with hqp
      · subst hqp
        rw [if_neg fun heq => hqr (hdp heq)] at hheld
        omega
      · rw [sub_zero]
        exact h.through.counted q hq hqr
  · rw [hinode] at hq
    split_ifs at hq
    exact h.linked x hx q hq
  · rw [hinode] at hq
    split_ifs at hq
    exact h.top q hq
  · rw [held_unlinkDentry hd hp, unlinkDentry_inode]
    have hcountq := h.counts q hq
    show held s q - _ ≤ (s.vol.inode q).iRefcnt - _
    split_ifs
    · omega
    · omega
    · omega
  · rw [held_unlinkDentry hd hp, unlinkDentry_inode, if_pos rfl, if_neg hroot]
    show held s p - 2 < (s.vol.inode p).iRefcnt - (if p = p then 1 else 0)
    rw [if_pos rfl]
    omega

/-- put_dentry of a cached dentry. -/
theorem Cached.putDentry (h : Cached s) (hd : d ∈ s.dentryList)
    (hput : putDentry s d env = .ok s') : Cached s' := by
  obtain ⟨-, parent, p, -, hp, ⟨-, rfl⟩ | ⟨-, hroot, vol, hvol, rfl⟩⟩ := putDentry_ok hput
  · exact (h.unlinkDentry hd hp parent).1
  obtain ⟨hcut, hmore⟩ := h.unlinkDentry hd hp parent
  have hmem : p ∈ (DentryCache.unlinkDentry s d parent p).vol.inodeList := h.linked d hd p hp
  obtain ⟨hthrough, hothers, hend⟩ := hcut.through.putInode hmem hvol
  have hleft := hmore hroot
  have hlist : ∀ q ∈ (DentryCache.unlinkDentry s d parent p).vol.inodeList,
      q ∈ vol.inodeList ∨ held (DentryCache.unlinkDentry s d parent p) q = 0 ∧ q = p := by
    intro q hq
    rcases hend with ⟨hsame, -⟩ | ⟨hone, -, herase⟩
    · exact .inl (hsame ▸ hq)
    · by_cases hqp : q = p
      · have hnonneg := held_nonneg (DentryCache.unlinkDentry s d parent p) p
        exact .inr ⟨by rw [hqp]; omega, hqp⟩
      · rw [herase]
        exact .inl ((List.mem_erase_of_ne hqp).mpr hq)
  have hcounts : ∀ q ∈ vol.inodeList,
      held (DentryCache.unlinkDentry s d parent p) q ≤ (vol.inode q).iRefcnt := by
    intro q hq
    by_cases hqp : q = p
    · subst hqp
      rcases hend with ⟨-, hinode⟩ | ⟨-, -, herase⟩
      · rw [hinode]
        show _ ≤ ((DentryCache.unlinkDentry s d parent q).vol.inode q).iRefcnt - 1
        omega
      · rw [herase, hcut.through.nodup.mem_erase_iff] at hq
        exact absurd rfl hq.1
    · rw [hothers q hqp]
      refine hcut.counts q ?_
      rcases hend with ⟨hsame, -⟩ | ⟨-, -, herase⟩
      · exact hsame ▸ hq
      · rw [herase] at hq
        exact List.mem_of_mem_erase hq
  -- the dentry that leaves dentry_list is linked to nothing
  have hheld : ∀ q, held { DentryCache.unlinkDentry s d parent p with
      vol := vol
      dentryList := s.dentryList.erase d } q = held (DentryCache.unlinkDentry s d parent p) q := by
    intro q
    have hlinks : OpenSafety.links { DentryCache.unlinkDentry s d parent p with
        vol := vol
        dentryList := s.dentryList.erase d } q =
          OpenSafety.links (DentryCache.unlinkDentry s d parent p) q := by
      ext x
      rw [OpenSafety.mem_links, OpenSafety.mem_links, h.rooted.nodup.mem_erase_iff]
      show (x ≠ d ∧ x ∈ s.dentryList) ∧ _ ∧ _ ↔ x ∈ s.dentryList ∧ _ ∧ _
      by_cases hx : x = d
      · simp [hx, unlinkDentry_self]
      · simp [hx]
    rw [held, held, hlinks]
  refine ⟨hthrough, hcut.rooted.erase hroot, fun x hx q hq => ?_, hcut.top, fun q hq => ?_⟩
  · have hx' : x ∈ s.dentryList := List.mem_of_mem_erase hx
    rcases hlist q (hcut.linked x hx' q hq) with hq' | ⟨hzero, -⟩
    · exact hq'
    · have hpos := held_of_link (s := DentryCache.unlinkDentry s d parent p) hx' hq
      split_ifs at hpos
      · omega
      · omega
  · rw [hheld]
    exact hcounts q hq

/-- _close of a cached dentry. -/
theorem Cached.close (h : Cached s) (hd : d ∈ s.dentryList) (hclose : close s d env = .ok s') :
    Cached s' := by
  have hparent : (s.dentry d).dParent = some .root := by
    simp only [DentryCache.close, bind_eq_ok] at hclose
    obtain ⟨s₁, hput, -⟩ := hclose
    exact h.rooted.parent_of_put hd hput
  rw [close_eq_putDentry hparent] at hclose
  exact h.putDentry hd hclose

/-- get_dentry below root_dentry, with memory fit for the inode it may read in. -/
theorem Cached.getDentry (h : Cached s)
    (hspare : AliasLists.ReadsIn s .root dname env →
      0 ≤ (s.vol.inode (AliasLists.nextInode s env)).iRefcnt)
    (hget : getDentry s .root dname env = .ok (r, s')) : Cached s' := by
  obtain ⟨dir, hdir, ⟨d, -, -, rfl⟩ | ⟨hnone, pos, inum, hlook, ⟨-, -, rfl⟩ |
    ⟨hpos, p, vol, d, dName, hinode, -, hfresh, -, -, rfl⟩⟩⟩ := getDentry_ok hget
  · exact h.addRef d 1
  · exact h
  obtain rfl : dir = .root := h.top dir hdir
  have hroot : 0 < (s.vol.inode .root).iRefcnt := by
    have hheld := held_of_link h.rooted.root hdir
    have hcount := h.counts .root h.through.root.1
    rw [if_pos rfl] at hheld
    omega
  have hgot : Got s.vol vol inum p := h.through.getInode hinode (fun _ => hroot) fun hmiss =>
    hspare ⟨.root, pos, inum, hdir, hnone, hlook, hpos, hmiss⟩
  obtain ⟨hp, hkeep⟩ := hgot.mem
  -- the reference of get_inode is the one to spare
  have hmore : held s p < (vol.inode p).iRefcnt := by
    have hcount := hgot.count
    rcases hgot.list with ⟨hold, -⟩ | ⟨hnew, -⟩
    · have hheld := h.counts p hold
      omega
    · have hheld := h.held_fresh hnew
      obtain ⟨-, hold, -⟩ | ⟨hmiss, hnext, -⟩ := AliasLists.getInode_lists hinode
      · exact absurd hold hnew
      · have hzero := hspare ⟨.root, pos, inum, hdir, hnone, hlook, hpos, hmiss⟩
        rw [← hnext] at hzero
        omega
  have hvol : Cached { s with vol := vol } := by
    refine h.volume hgot.through hkeep fun q hq => ?_
    by_cases hqp : q = p
    · rw [hqp]
      exact hmore.le
    · rw [hgot.others q hqp]
      refine h.counts q ?_
      rcases hgot.list with ⟨-, hlist⟩ | ⟨-, hlist⟩
      · exact hlist ▸ hq
      · rw [hlist] at hq
        exact (List.mem_cons.mp hq).resolve_left hqp
  exact hvol.addDentry hfresh hp hmore

/-- create_inode, while a number of the table is free: an inode that no dentry is linked to. -/
theorem Cached.newInodeOf (h : Cached s) (hfree : ∃ n < tableSize, ¬InodeBit s.vol.disk n)
    (hnew : newInodeOf s 123 env = .ok (p, s')) :
    Cached s' ∧ p ∈ s'.vol.inodeList ∧ held s' p < (s'.vol.inode p).iRefcnt := by
  obtain ⟨vol, hcreate, rfl⟩ := newInodeOf_ok hnew
  obtain ⟨m, -, -, hthrough, -, -, -, hp, -, hinode, hlist⟩ :=
    h.through.createInode hcreate hfree (by decide)
  have hself : vol.inode p = newInode m 123 := by
    rw [hinode, Function.update_self]
  have hmore : held s p < (vol.inode p).iRefcnt := by
    rw [h.held_fresh hp, hself]
    exact one_pos
  have hvol : Cached { s with vol := vol } := by
    refine h.volume hthrough (fun q hq => ?_) fun q hq => ?_
    · rw [hlist]
      exact List.mem_cons_of_mem _ hq
    · by_cases hqp : q = p
      · rw [hqp]
        exact hmore.le
      · rw [hinode, Function.update_of_ne hqp]
        rw [hlist] at hq
        exact h.counts q ((List.mem_cons.mp hq).resolve_left hqp)
  refine ⟨hvol.congr (hvol.rooted.same rfl rfl rfl) rfl (fun _ => rfl) rfl, ?_, hmore⟩
  show p ∈ vol.inodeList
  rw [hlist]
  exact List.mem_cons_self ..

/-- create_dentry, for an inode that has a reference to spare. -/
theorem Cached.createDentry (h : Cached s) (hp : p ∈ s.vol.inodeList)
    (hmore : held s p < (s.vol.inode p).iRefcnt)
    (hcreate : createDentry s .root dname p env = .ok (some d, s')) : Cached s' := by
  obtain ⟨_, -, hr⟩ | ⟨-, dir, name, ret, disk, dirInode, d', dName, hdir, -, hadd, -, hfresh, -, -,
    hcount⟩ := createDentry_ok hcreate
  · cases hr
  have hsame := addDirEntry_same hadd
  have hentry : Cached { s with vol := { s.vol.setInode dir dirInode with disk := disk } } :=
    h.setInode (h.through.addDirEntry (h.linked .root h.rooted.root dir hdir) hadd) hsame.2
  have hspare : held s p < (Function.update s.vol.inode dir dirInode p).iRefcnt := by
    by_cases hpd : p = dir
    · rw [hpd, Function.update_self, hsame.2, ← hpd]
      exact hmore
    · rw [Function.update_of_ne hpd]
      exact hmore
  have hlink : Cached (DentryCache.addDentry { s with
      vol := { s.vol.setInode dir dirInode with disk := disk } } d' .root dName p) :=
    hentry.addDentry hfresh hp hspare
  obtain ⟨disk', hrec, rfl⟩ := countLink_ok hcount
  exact hlink.setInode (hlink.through.relink hp hrec) rfl

theorem getDentry_misses (h : Cached s) (hget : getDentry s .root dname env = .ok (none, s')) :
    findDentry s .root dname = none ∧
      ∃ pos inum, lookupDisk s .root dname env = .ok (pos, inum) ∧ pos < 0 := by
  obtain ⟨dir, hdir, ⟨d, -, hr, -⟩ | ⟨hnone, pos, inum, hlook, ⟨hneg, -, -⟩ |
    ⟨-, _, _, _, _, -, -, -, -, hr, -⟩⟩⟩ := getDentry_ok hget
  · cases hr
  · obtain rfl : dir = .root := h.top dir hdir
    exact ⟨hnone, pos, inum, hlook, hneg⟩
  · cases hr

theorem Cached.openLast (h : Cached s) {flags : UInt32}
    (hspare : AliasLists.ReadsIn s .root dname env →
      0 ≤ (s.vol.inode (AliasLists.nextInode s env)).iRefcnt)
    (hfree : oCreat flags = true → findDentry s .root dname = none →
      (∃ pos inum, lookupDisk s .root dname env = .ok (pos, inum) ∧ pos < 0) →
        ∃ n < tableSize, ¬InodeBit s.vol.disk n)
    (hlast : openLast s .root dname flags env = .ok (r, s')) : Cached s' := by
  obtain ⟨d, -, hget⟩ | ⟨hget, ⟨-, -, rfl⟩ | ⟨hcreat, d, p, s₁, -, hnew, hcreate⟩⟩ :=
    openLast_ok hlast
  · exact h.getDentry hspare hget
  · exact h
  · obtain ⟨hnone, hmiss⟩ := getDentry_misses h hget
    obtain ⟨hmade, hp, hmore⟩ := h.newInodeOf (hfree hcreat hnone hmiss) hnew
    exact hmade.createDentry hp hmore hcreate

/-- A dentry that is on the list or unlinked. -/
def Settled (s : FsState) (x : DentryPtr) : Prop := x ∈ s.dentryList ∨ (s.dentry x).dInode = none

theorem Settled.putDentry {x : DentryPtr} (h : Settled s x) (hput : putDentry s d env = .ok s') :
    Settled s' x := by
  have hcut : ∀ parent p, ((DentryCache.unlinkDentry s d parent p).dentry x).dInode = none ∨
      x ≠ d ∧ x ∈ s.dentryList := by
    intro parent p
    by_cases hx : x = d
    · rw [hx, unlinkDentry_self]
      exact .inl rfl
    · rw [unlinkDentry_of_ne hx]
      exact h.elim (fun hmem => .inr ⟨hx, hmem⟩) .inl
  obtain ⟨-, parent, p, -, -, ⟨-, rfl⟩ | ⟨-, -, vol, -, rfl⟩⟩ := putDentry_ok hput
  · exact (hcut parent p).elim .inr fun hmem => .inl hmem.2
  · exact (hcut parent p).elim .inr fun hmem => .inl ((List.mem_erase_of_ne hmem.1).mpr hmem.2)

theorem Settled.closeUp {x : DentryPtr} (h : Settled s x) {fuel : Nat}
    (hclose : closeUp env fuel s d = .ok s') : Settled s' x := by
  induction fuel generalizing s d with
  | zero => cases hclose
  | succ fuel ih =>
    rw [DentryCache.closeUp] at hclose
    split_ifs at hclose
    · simp only [pure_eq_ok, Except.ok.injEq] at hclose
      exact hclose ▸ h
    · simp only [bind_eq_ok] at hclose
      obtain ⟨s₁, hput, parent, -, hclose⟩ := hclose
      exact ih (h.putDentry hput) hclose

theorem Settled.close {x : DentryPtr} (h : Settled s x) (hclose : close s d env = .ok s') :
    Settled s' x := by
  simp only [DentryCache.close, bind_eq_ok] at hclose
  obtain ⟨s₁, hput, hclose⟩ := hclose
  split_ifs at hclose
  · simp only [bind_eq_ok] at hclose
    obtain ⟨parent, -, hclose⟩ := hclose
    exact (h.putDentry hput).closeUp hclose
  · simp only [pure_eq_ok, Except.ok.injEq] at hclose
    exact hclose ▸ h.putDentry hput

theorem Settled.addRef {x : DentryPtr} (h : Settled s x) (n : Int) : Settled (addRef s d n) x := by
  rw [Settled, addRef_dentry]
  exact h

theorem Settled.addDentry {x : DentryPtr} (h : Settled s x) (hroot : d ≠ .root) :
    Settled (addDentry s d .root dName p) x := by
  by_cases hx : x = d
  · exact .inl (hx ▸ List.mem_cons_self ..)
  · rw [Settled, addDentry_of_ne hroot hx]
    exact h.imp_left (List.mem_cons_of_mem d)

theorem Settled.getDentry {x : DentryPtr} (h : Settled s x) (hroot : .root ∈ s.dentryList)
    (hget : getDentry s .root dname env = .ok (r, s')) : Settled s' x := by
  obtain ⟨dir, -, ⟨d, -, -, rfl⟩ | ⟨-, pos, inum, -, ⟨-, -, rfl⟩ |
    ⟨-, p, vol, d, dName, -, -, hfresh, -, -, rfl⟩⟩⟩ := getDentry_ok hget
  · exact h.addRef 1
  · exact h
  · have hvol : Settled { s with vol := vol } x := h
    exact hvol.addDentry fun heq => hfresh (heq ▸ hroot)

theorem getDentry_mem (hget : getDentry s .root dname env = .ok (some d, s')) :
    d ∈ s'.dentryList := by
  obtain ⟨dir, -, ⟨d', hfind, hr, rfl⟩ | ⟨-, pos, inum, -, ⟨-, hr, -⟩ |
    ⟨-, p, vol, d', dName, -, -, -, -, hr, rfl⟩⟩⟩ := getDentry_ok hget
  · obtain rfl := Option.some.inj hr
    exact (findDentry_some hfind).1
  · cases hr
  · obtain rfl := Option.some.inj hr
    exact List.mem_cons_self ..

/-- The last part of sys_open: the dentry it gets is listed, and the others stay settled. -/
theorem openLast_settled {flags : UInt32} (hroot : .root ∈ s.dentryList)
    (hlast : openLast s .root dname flags env = .ok (r, s')) :
    (∀ x, Settled s x → Settled s' x) ∧ ∀ d, r = some d → d ∈ s'.dentryList := by
  obtain ⟨d, rfl, hget⟩ | ⟨hget, ⟨-, rfl, rfl⟩ | ⟨-, d, p, s₁, rfl, hnew, hcreate⟩⟩ :=
    openLast_ok hlast
  · refine ⟨fun x hx => hx.getDentry hroot hget, fun d' hd => ?_⟩
    obtain rfl := Option.some.inj hd
    exact getDentry_mem hget
  · exact ⟨fun x hx => hx, nofun⟩
  · obtain ⟨vol, -, rfl⟩ := newInodeOf_ok hnew
    obtain ⟨_, -, hr⟩ | ⟨-, dir, name, ret, disk, dirInode, d', dName, -, -, -, -, hfresh, -, hr,
      hcount⟩ := createDentry_ok hcreate
    · cases hr
    obtain rfl := Option.some.inj hr
    obtain ⟨disk', -, rfl⟩ := countLink_ok hcount
    refine ⟨fun x hx => ?_, fun d' hd => ?_⟩
    · exact hx.addDentry fun heq => hfresh (heq ▸ hroot)
    · obtain rfl := Option.some.inj hd
      exact List.mem_cons_self ..

end Dentries

/-! ## The two walks -/

section Walks

variable {path : Pathname} {r : Option DentryPtr}

theorem Cached.root_close (h : Cached s)
    (hclose : DentryCache.close (DentryCache.addRef s .root 1) .root env = .ok s') : Cached s' :=
  (h.addRef .root 1).close h.rooted.root hclose

theorem Cached.opendir (h : Cached s) (hdir : DentryCache.opendir s path env = .ok (r, s')) :
    Cached s' := by
  obtain ⟨-, ⟨-, -, rfl⟩ | ⟨-, -, -, hclose⟩⟩ := opendir_ok hdir
  · exact h.addRef .root 1
  · exact h.root_close hclose

theorem Settled.opendir {x : DentryPtr} (h : Settled s x)
    (hdir : opendir s path env = .ok (r, s')) :
    Settled s' x := by
  obtain ⟨-, ⟨-, -, rfl⟩ | ⟨-, -, -, hclose⟩⟩ := opendir_ok hdir
  · exact h.addRef 1
  · exact (h.addRef 1).close hclose

theorem Cached.openPath (h : Cached s) (hspare : Spare s (pathFirst (rest path)) env)
    (hopen : openPath s path env = .ok (r, s')) : Cached s' := by
  obtain ⟨-, ⟨-, -, rfl⟩ | ⟨-, ⟨d, -, -, hget⟩ | ⟨-, -, hclose⟩⟩⟩ := openPath_ok hopen
  · exact h.addRef .root 1
  · exact (h.addRef .root 1).getDentry hspare hget
  · exact h.root_close hclose

theorem Settled.openPath {x : DentryPtr} (h : Settled s x) (hroot : .root ∈ s.dentryList)
    (hopen : openPath s path env = .ok (r, s')) : Settled s' x := by
  obtain ⟨-, ⟨-, -, rfl⟩ | ⟨-, ⟨d, -, -, hget⟩ | ⟨-, -, hclose⟩⟩⟩ := openPath_ok hopen
  · exact h.addRef 1
  · exact (h.addRef 1).getDentry hroot hget
  · exact (h.addRef 1).close hclose

theorem openPath_mem (hroot : .root ∈ s.dentryList)
    (hopen : openPath s path env = .ok (some d, s')) : d ∈ s'.dentryList := by
  obtain ⟨-, ⟨-, hr, rfl⟩ | ⟨-, ⟨d', hr, -, hget⟩ | ⟨hr, -⟩⟩⟩ := openPath_ok hopen
  · obtain rfl := Option.some.inj hr
    exact hroot
  · obtain rfl := Option.some.inj hr
    exact getDentry_mem hget
  · cases hr

theorem openPath_sameFiles (hopen : openPath s path env = .ok (r, s')) : SameFiles s s' := by
  have hroot : SameFiles s (addRef s .root 1) := ⟨rfl, rfl, rfl⟩
  obtain ⟨-, ⟨-, -, rfl⟩ | ⟨-, ⟨d, -, -, hget⟩ | ⟨-, -, hclose⟩⟩⟩ := openPath_ok hopen
  · exact hroot
  · exact hroot.trans (getDentry_sameFiles hget)
  · exact hroot.trans (close_sameFiles hclose)

theorem getInode_reads {v v' : Volume} {inum addr : Nat}
    (hget : getInode v inum addr = .ok (p, v')) :
    v'.disk = v.disk ∧ (v'.inode p).iInum = inum := by
  rcases getInode_ok hget with ⟨hfind, rfl⟩ | ⟨-, -, -, inode, hread, rfl⟩
  · refine ⟨rfl, ?_⟩
    simp only [Volume.setInode, Function.update_self]
    exact (findInode_some hfind).2.1
  · refine ⟨rfl, ?_⟩
    simp only [Function.update_self]
    exact (readInode_ok hread).2.2.2.1

/-- What sizeAt says before the walk is the i_size that sys_truncate sees after it. -/
theorem Cached.sizeAt_of_openPath (h : Cached s) (hspare : Spare s (pathFirst (rest path)) env)
    (hopen : DentryCache.openPath s path env = .ok (some d, s'))
    (hp : (s'.dentry d).dInode = some p) :
    sizeAt (DentryCache.addRef s .root 1) path env = some (s'.vol.inode p).iSize := by
  have hafter := h.openPath hspare hopen
  have hsame := hafter.through.same p (hafter.linked d (openPath_mem h.rooted.root hopen) p hp)
  obtain ⟨-, ⟨hnil, hr, rfl⟩ | ⟨hne, ⟨d', hr, -, hget⟩ | ⟨hr, -⟩⟩⟩ := openPath_ok hopen
  · obtain rfl := Option.some.inj hr
    rw [sizeAt, if_pos hnil, hp]
    rfl
  · obtain rfl := Option.some.inj hr
    rw [sizeAt, if_neg hne]
    obtain ⟨dir, hdir, ⟨d', hfind, hr, rfl⟩ | ⟨hnone, pos, inum, hlook, ⟨-, hr, -⟩ |
      ⟨hpos, p', vol, d', dName, hinode, -, hfresh, -, hr, rfl⟩⟩⟩ := getDentry_ok hget
    · obtain rfl := Option.some.inj hr
      rw [addRef_dentry] at hp
      have hlink : ((DentryCache.addRef s .root 1).dentry d).dInode = some p := hp
      simp only [hfind, hlink]
      rfl
    · cases hr
    · obtain rfl := Option.some.inj hr
      obtain rfl : dir = .root := (h.addRef .root 1).top dir hdir
      have hroot : d ≠ .root := fun heq => hfresh (heq ▸ h.rooted.root)
      rw [addDentry_self hroot] at hp
      obtain rfl := Option.some.inj hp
      obtain ⟨hdisk, hnum⟩ := getInode_reads hinode
      have hinum : ((DentryCache.addDentry { DentryCache.addRef s .root 1 with vol := vol } d .root
          dName p').vol.inode p').iInum = inum := by
        rw [addDentry_inode]
        exact hnum
      have hkept : (DentryCache.addDentry { DentryCache.addRef s .root 1 with vol := vol } d .root
          dName p').vol.disk = (DentryCache.addRef s .root 1).vol.disk := hdisk
      rw [hinum, hkept] at hsame
      simp only [hnone, hlook, if_neg (not_lt.mpr hpos), hsame]
      rfl
  · cases hr

theorem Cached.sizeAt_of_openPath_none (h : Cached s)
    (hopen : DentryCache.openPath s path env = .ok (none, s')) :
    sizeAt (DentryCache.addRef s .root 1) path env = none := by
  obtain ⟨-, ⟨-, hr, -⟩ | ⟨hne, ⟨d, hr, -⟩ | ⟨-, hget, -⟩⟩⟩ := openPath_ok hopen
  · cases hr
  · cases hr
  · obtain ⟨hnone, pos, inum, hlook, hneg⟩ := getDentry_misses (h.addRef .root 1) hget
    simp only [sizeAt, if_neg hne, hnone, hlook, if_pos hneg]

end Walks

/-! ## The calls -/

/-- The caches, and the dentries that the file objects handed out point to. -/
structure Kept (s : FsState) : Prop where
  cached : Cached s
  tied : ∀ f ∈ s.files, ∀ d, (s.file f).fDentry = some d → Settled s d

section Calls

variable {pathname : CStr} {flags : UInt32} {fd : Fin nrMaxOpen}

theorem Kept.writtenThrough (h : Kept s) : WrittenThrough s := by
  have hsame := h.cached.through.same
  have htable := h.cached.through.table
  refine ⟨fun p hp => by rw [hsame p hp, onDisk], fun p hp => by rw [hsame p hp, onDisk],
    fun p hp => by rw [hsame p hp, onDisk], fun n hn k => ?_⟩
  by_cases hk : (k : Int) < zonesOf (stored s.vol.disk n).iSize
  · exact ((htable.owned n hn).taken k hk).1
  · rw [htable.high n hn k (not_lt.mp hk)]
    exact htable.reserved 0 (by decide)

/-- The file objects still point to dentries that are on the list or unlinked. -/
theorem Kept.of_files (h : Kept s) (hcached : Cached s')
    (hsettled : ∀ x, Settled s x → Settled s' x)
    (hfiles : ∀ g ∈ s'.files, g ∈ s.files ∧ (s'.file g).fDentry = (s.file g).fDentry ∨
      ∃ d ∈ s'.dentryList, (s'.file g).fDentry = some d) : Kept s' := by
  refine ⟨hcached, fun g hg d hd => ?_⟩
  rcases hfiles g hg with ⟨hold, hsame⟩ | ⟨d', hmem, hnew⟩
  · exact hsettled d (h.tied g hold d (hsame ▸ hd))
  · rw [hnew] at hd
    exact .inl (Option.some.inj hd ▸ hmem)

/-- The file object of a sys_open that has failed is gone again. -/
theorem freed_files (hfresh : f ∉ s.files) {slot : Fin nrMaxOpen} {s₂ : FsState}
    (hfiles : SameFiles (withSlot s slot f flags) s₂) (hfree : freeFile s₂ f = .ok s') :
    ∀ g ∈ s'.files, g ∈ s.files ∧ (s'.file g).fDentry = (s.file g).fDentry := by
  obtain ⟨-, rfl⟩ := freeFile_ok hfree
  intro g hg
  have hmem : g ∈ s.files := by
    have hlist : s₂.files.erase f = s.files := by
      rw [hfiles.files]
      exact List.erase_cons_head ..
    exact hlist ▸ hg
  have hgf : g ≠ f := fun heq => hfresh (heq ▸ hmem)
  refine ⟨hmem, ?_⟩
  show (s₂.file g).fDentry = _
  rw [hfiles.file]
  exact congrArg File.fDentry (Function.update_of_ne hgf ..)

/-- The file object of a sys_open that has found its file leads to it. -/
theorem opened_files {slot : Fin nrMaxOpen} {s₂ : FsState}
    (hfiles : SameFiles (withSlot s slot f flags) s₂) {file : File} {g : Nat}
    (hg : g ∈ (s₂.setFile f file).files) :
    g = f ∧ ((s₂.setFile f file).file g).fDentry = file.fDentry ∨
      g ∈ s.files ∧ ((s₂.setFile f file).file g).fDentry = (s.file g).fDentry := by
  have hmem : g ∈ s₂.files := hg
  rw [hfiles.files] at hmem
  by_cases hgf : g = f
  · refine .inl ⟨hgf, ?_⟩
    rw [hgf]
    simp only [FsState.setFile, Function.update_self]
  · refine .inr ⟨(List.mem_cons.mp hmem).resolve_left hgf, ?_⟩
    have hfile : s₂.file g = s.file g := by
      rw [hfiles.file]
      exact Function.update_of_ne hgf ..
    rw [← hfile]
    exact congrArg File.fDentry (Function.update_of_ne hgf ..)

/-- A sys_open that has failed has only its file object to give back. -/
theorem Kept.giveBack (h : Kept s) (hfresh : f ∉ s.files) {slot : Fin nrMaxOpen} {s₂ : FsState}
    (hcached : Cached s₂) (hsettled : ∀ x, Settled s x → Settled s₂ x)
    (hfiles : SameFiles (withSlot s slot f flags) s₂) (hfree : freeFile s₂ f = .ok s') :
    Kept s' := by
  have hrooted := hcached.rooted.freeFile hfree
  have hback := freed_files hfresh hfiles hfree
  obtain ⟨-, rfl⟩ := freeFile_ok hfree
  exact h.of_files (hcached.congr hrooted rfl (fun _ => rfl) rfl) hsettled fun g hg =>
    .inl (hback g hg)

theorem Kept.sysOpen (h : Kept s) {r : Option (Fin nrMaxOpen)}
    (hready : Ready s (.open pathname flags env))
    (hopen : sysOpen s pathname flags env = .ok (r, s')) : Kept s' := by
  obtain ⟨path, hpath, ⟨-, -, rfl⟩ | ⟨slot, f, s₁, -, halloc, hcases⟩⟩ := sysOpen_ok hopen
  · exact h
  obtain ⟨hspare, hfree⟩ := hready path hpath
  obtain ⟨-, hfresh, rfl⟩ := allocFile_ok halloc
  have h₁ : Cached (withSlot s slot f flags) :=
    h.cached.congr (h.cached.rooted.withSlot hfresh slot flags) rfl (fun _ => rfl) rfl
  obtain ⟨s₂, hdir, hback, -⟩ | ⟨s₂, s₃, dentry, hdir, -, hlast, hend⟩ := hcases
  · refine h.giveBack hfresh (h₁.opendir hdir) (fun x hx => ?_) (opendir_sameFiles hdir) hback
    have hslot : Settled (withSlot s slot f flags) x := hx
    exact hslot.opendir hdir
  have hfiles := (opendir_sameFiles hdir).trans (openLast_sameFiles hlast)
  obtain ⟨-, ⟨-, -, rfl⟩ | ⟨-, hr, -⟩⟩ := opendir_ok hdir
  swap
  · cases hr
  have h₂ : Cached (addRef (withSlot s slot f flags) .root 1) := h₁.addRef .root 1
  have h₃ : Cached s₃ := h₂.openLast hspare (fun hc hnone hmiss => hfree hc ⟨hnone, hmiss⟩) hlast
  obtain ⟨hsettle, hmem⟩ := openLast_settled h₂.rooted.root hlast
  have hsettled : ∀ x, Settled s x → Settled s₃ x := by
    intro x hx
    have hslot : Settled (withSlot s slot f flags) x := hx
    exact hsettle x (hslot.addRef 1)
  obtain ⟨-, hback, -⟩ | ⟨d, hd, -, rfl⟩ := hend
  · exact h.giveBack hfresh h₃ hsettled hfiles hback
  · refine h.of_files (h₃.congr (h₃.rooted.same rfl rfl rfl) rfl (fun _ => rfl) rfl) hsettled
      fun g hg => ?_
    obtain ⟨-, hnew⟩ | hold := opened_files hfiles hg
    · exact .inr ⟨d, hmem d hd, hnew⟩
    · exact .inl hold

/-- The dentry of an open file is on the list while it is linked. -/
theorem Kept.listed (h : Kept s) (hf : f ∈ s.files) (hd : (s.file f).fDentry = some d)
    (hp : (s.dentry d).dInode = some p) : d ∈ s.dentryList := by
  rcases h.tied f hf d hd with hmem | hnone
  · exact hmem
  · rw [hnone] at hp
    cases hp

theorem close_linked (hclose : close s d env = .ok s') : ∃ p, (s.dentry d).dInode = some p := by
  simp only [DentryCache.close, bind_eq_ok] at hclose
  obtain ⟨s₁, hput, -⟩ := hclose
  obtain ⟨-, parent, p, -, hp, -⟩ := putDentry_ok hput
  exact ⟨p, hp⟩

theorem Kept.sysClose (h : Kept s) (hclose : sysClose s fd env = .ok s') : Kept s' := by
  obtain ⟨f, d, s₁, -, hd, hput, hfree⟩ := sysClose_ok hclose
  have hsame := close_sameFiles hput
  obtain ⟨hf, -⟩ := freeFile_ok hfree
  obtain ⟨p, hp⟩ := close_linked hput
  have hmem : d ∈ s.dentryList := h.listed (hsame.files ▸ hf) hd hp
  have h₁ : Cached s₁ := h.cached.close hmem hput
  have hrooted := h₁.rooted.freeFile hfree
  obtain ⟨-, rfl⟩ := freeFile_ok hfree
  have hsettled : ∀ x, Settled s x → Settled s₁ x := fun x hx => hx.close hput
  refine h.of_files (h₁.congr hrooted rfl (fun _ => rfl) rfl) hsettled
    fun g hg => .inl ⟨?_, by rw [hsame.file]⟩
  rw [← hsame.files]
  exact List.mem_of_mem_erase hg

/-- sys_truncate finds nothing, or a file that it leaves alone or cuts. -/
theorem sysTruncate_ok {length ret : Int}
    (htrunc : sysTruncate s pathname length env = .ok (ret, s')) :
    ∃ path dentry s₁, kernelString pathname = .ok path ∧ openPath s path env = .ok (dentry, s₁) ∧
      ((dentry = none ∧ s' = s₁) ∨ ∃ d p, dentry = some d ∧ (s₁.dentry d).dInode = some p ∧
        (((s₁.vol.inode p).iSize ≤ length ∧ s' = s₁) ∨ length < (s₁.vol.inode p).iSize ∧
          ∃ disk inode, reserveZone s₁.vol.disk (s₁.vol.inode p) (zonesOf length) true =
              .ok (disk, inode) ∧
            s' = { s₁ with vol :=
              { s₁.vol.setInode p { inode with iSize := length } with disk := disk } })) := by
  simp only [sysTruncate, bind_eq_ok] at htrunc
  obtain ⟨path, hpath, ⟨dentry, s₁⟩, hopen, htrunc⟩ := htrunc
  refine ⟨path, dentry, s₁, hpath, hopen, ?_⟩
  cases dentry with
  | none =>
    simp only [pure_eq_ok, Except.ok.injEq, Prod.mk.injEq] at htrunc
    exact .inl ⟨rfl, htrunc.2.symm⟩
  | some d =>
    simp only [bind_eq_ok, deref_eq_ok] at htrunc
    obtain ⟨p, hp, htrunc⟩ := htrunc
    refine .inr ⟨d, p, rfl, hp, ?_⟩
    split_ifs at htrunc with hlt
    · simp only [bind_eq_ok, pure_eq_ok, Except.ok.injEq, Prod.mk.injEq] at htrunc
      obtain ⟨⟨disk, inode⟩, hres, -, rfl⟩ := htrunc
      exact .inr ⟨hlt, disk, inode, hres, rfl⟩
    · simp only [pure_eq_ok, Except.ok.injEq, Prod.mk.injEq] at htrunc
      exact .inl ⟨not_lt.mp hlt, htrunc.2.symm⟩

theorem Kept.openPath (h : Kept s) {path : Pathname} {r : Option DentryPtr}
    (hspare : Spare s (pathFirst (rest path)) env)
    (hopen : openPath s path env = .ok (r, s')) : Kept s' := by
  have hsame := openPath_sameFiles hopen
  refine h.of_files (h.cached.openPath hspare hopen)
    (fun x hx => hx.openPath h.cached.rooted.root hopen) fun g hg => .inl ⟨?_, by rw [hsame.file]⟩
  rw [← hsame.files]
  exact hg

theorem Kept.sysTruncate (h : Kept s) {length ret : Int}
    (hready : Ready s (.truncate pathname length env))
    (hwhole : Whole s (.truncate pathname length env))
    (htrunc : sysTruncate s pathname length env = .ok (ret, s')) : Kept s' := by
  obtain ⟨path, dentry, s₁, hpath, hopen, ⟨-, rfl⟩ | ⟨d, p, rfl, hp, hcases⟩⟩ :=
    sysTruncate_ok htrunc
  · exact h.openPath (hready path hpath) hopen
  have hsize := h.cached.sizeAt_of_openPath (hready path hpath) hopen hp
  obtain ⟨-, rfl⟩ | ⟨hlt, -⟩ := hcases
  · exact h.openPath (hready path hpath) hopen
  · have hle := hwhole path _ hpath hsize
    omega

/-- A sys_truncate that cuts a file forgets write_inode: the record still has the old size. -/
theorem Kept.cut (h : Kept s) {length ret : Int} (hready : Ready s (.truncate pathname length env))
    (hcut : ¬Whole s (.truncate pathname length env))
    (htrunc : Open.sysTruncate s pathname length env = .ok (ret, s')) : ¬WrittenThrough s' := by
  simp only [Whole, not_forall, not_le] at hcut
  obtain ⟨path, size, hpath, hsize, hlt⟩ := hcut
  obtain ⟨path', dentry, s₁, hpath', hopen, hcases⟩ := sysTruncate_ok htrunc
  obtain rfl : path = path' := Except.ok.inj (hpath.symm.trans hpath')
  have hspare := hready path hpath
  have h₁ : Cached s₁ := h.cached.openPath hspare hopen
  obtain ⟨rfl, -⟩ | ⟨d, p, rfl, hp, hcases⟩ := hcases
  · rw [h.cached.sizeAt_of_openPath_none hopen] at hsize
    cases hsize
  rw [h.cached.sizeAt_of_openPath hspare hopen hp] at hsize
  obtain rfl := Option.some.inj hsize
  obtain ⟨hle, -⟩ | ⟨-, disk, inode, hres, rfl⟩ := hcases
  · omega
  have hmem := h₁.linked d (openPath_mem h.cached.rooted.root hopen) p hp
  have hsame := h₁.through.same p hmem
  have hused := h₁.through.used p hmem
  obtain ⟨hown, -, hfits, -⟩ := h₁.through.table.ready hused hsame
  obtain ⟨-, hkept, hbut⟩ :=
    reserveZone_ok (Owned.others_meta h₁.through.table.reserved hown) hfits hres
  have hblk := inodeBlk_lt (h₁.through.table.inside _ hused)
  have hge := Directory.inodeBlk_ge (s₁.vol.inode p).iInum
  have hrecord : stored disk (s₁.vol.inode p).iInum = onDisk (s₁.vol.inode p) := by
    rw [← hsame]
    exact stored_congr (hkept _ (hblk.trans (by decide)) (by omega)
      (h₁.through.table.reserved _ hblk))
  intro hwritten
  have hsize := hwritten.size p hmem
  simp only [Volume.setInode, Function.update_self, hbut.iInum, hrecord, onDisk] at hsize
  omega

/-- Every round of the loop of sys_write leaves the inode as its record says. -/
theorem Through.sysWriteLoop {v : Volume} (h : Through v) (hp : p ∈ v.inodeList)
    {usr : Nat → UInt8} {ptrs : Pointers} {fuel : Nat} {t t' : Writing}
    (hdisk : t.file.disk = v.disk) (hinode : t.file.inode = v.inode p)
    (hloop : sysWriteLoop usr ptrs fuel t = .ok t') :
    Through { v.setInode p t'.file.inode with disk := t'.file.disk } ∧
      t'.file.inode.iRefcnt = (v.inode p).iRefcnt := by
  induction fuel generalizing v t with
  | zero => cases hloop
  | succ fuel ih =>
    rw [FileIo.sysWriteLoop] at hloop
    split_ifs at hloop
    · simp only [bind_eq_ok] at hloop
      obtain ⟨_, -, ⟨bytes, disk, inode⟩, hwrite, hloop⟩ := hloop
      rw [hdisk, hinode] at hwrite
      have hthrough := h.write hp hwrite
      have hcount : inode.iRefcnt = (v.inode p).iRefcnt := (write_same hwrite).iRefcnt
      split_ifs at hloop
      · have hself : (v.setInode p inode).inode p = inode := Function.update_self ..
        obtain ⟨hrest, hcount'⟩ := ih hthrough hp rfl hself.symm hloop
        rw [setInode_twice] at hrest
        refine ⟨hrest, ?_⟩
        rw [hcount', hself, hcount]
      · simp only [pure_eq_ok, Except.ok.injEq] at hloop
        subst hloop
        exact ⟨hthrough, hcount⟩
    · simp only [pure_eq_ok, Except.ok.injEq] at hloop
      subst hloop
      rw [hdisk, hinode]
      have hsame : { v.setInode p (v.inode p) with disk := v.disk } = v := by
        simp only [Volume.setInode, Function.update_eq_self]
      rw [hsame]
      exact ⟨h, rfl⟩

/-- A new position leads no file object elsewhere. -/
theorem movePos_fDentry (pos : Int) (g : Nat) :
    (Function.update s.file f { s.file f with fPos := pos } g).fDentry = (s.file g).fDentry := by
  by_cases hgf : g = f
  · rw [hgf, Function.update_self]
  · rw [Function.update_of_ne hgf]

/-- A read or a write moves the position; the inode is put back as `o` has it. -/
theorem Kept.putBack (h : Kept s) {o : OpenFile}
    (hthrough : Through { s.vol.setInode p o.inode with disk := o.disk })
    (hcount : o.inode.iRefcnt = (s.vol.inode p).iRefcnt) : Kept (putBack s f p o) := by
  have hvol := h.cached.setInode hthrough hcount
  have hcached : Cached (WriteThrough.putBack s f p o) :=
    hvol.congr (hvol.rooted.same rfl rfl rfl) rfl (fun _ => rfl) rfl
  exact h.of_files hcached (fun x hx => hx) fun g hg => .inl ⟨hg, movePos_fDentry o.fPos g⟩

theorem Kept.setPos (h : Kept s) (f : Nat) (pos : Int) : Kept (setPos s f pos) := by
  have hcached : Cached (WriteThrough.setPos s f pos) :=
    h.cached.congr (h.cached.rooted.same rfl rfl rfl) rfl (fun _ => rfl) rfl
  exact h.of_files hcached (fun x hx => hx) fun g hg => .inl ⟨hg, movePos_fDentry pos g⟩

theorem Kept.sysWrite (h : Kept s) {fuel : Nat} {count ret : Int} {found : Found} {usr : Nat → UInt8}
    {ptrs : Pointers} (hopen : ∀ f, s.filp fd = some f → f ∈ s.files)
    (hwrite : sysWrite fuel s fd count found usr ptrs = .ok (ret, s')) : Kept s' := by
  simp only [WriteThrough.sysWrite, bind_eq_ok, deref_eq_ok] at hwrite
  obtain ⟨f, hf, d, hd, hwrite⟩ := hwrite
  split_ifs at hwrite
  · simp only [withPage_eq_ok, pure_eq_ok, Except.ok.injEq, Prod.mk.injEq] at hwrite
    exact hwrite.2.2 ▸ h
  · simp only [bind_eq_ok, deref_eq_ok, pure_eq_ok, Except.ok.injEq, Prod.mk.injEq] at hwrite
    obtain ⟨p, hp, ⟨bytes, o⟩, hcall, -, rfl⟩ := hwrite
    have hmem : p ∈ s.vol.inodeList := h.cached.linked d (h.listed (hopen f hf) hd hp) p hp
    simp only [FileIo.sysWrite, withPage_eq_ok, bind_eq_ok, pure_eq_ok, Except.ok.injEq,
      Prod.mk.injEq] at hcall
    obtain ⟨-, t, hloop, -, rfl⟩ := hcall
    obtain ⟨hthrough, hcount⟩ := Through.sysWriteLoop h.cached.through hmem rfl rfl hloop
    exact h.putBack hthrough hcount

theorem Kept.sysRead (h : Kept s) {fuel : Nat} {count ret : Int} {found : Found} {usr : Nat → UInt8}
    (hread : sysRead fuel s fd count found usr = .ok (ret, s')) : Kept s' := by
  simp only [WriteThrough.sysRead, bind_eq_ok, deref_eq_ok] at hread
  obtain ⟨f, -, d, -, hread⟩ := hread
  split_ifs at hread
  · simp only [withPage_eq_ok, pure_eq_ok, Except.ok.injEq, Prod.mk.injEq] at hread
    exact hread.2.2 ▸ h
  · simp only [bind_eq_ok, deref_eq_ok, pure_eq_ok, Except.ok.injEq, Prod.mk.injEq] at hread
    obtain ⟨p, -, ⟨bytes, got, o⟩, hcall, -, rfl⟩ := hread
    simp only [FileIo.sysRead, withPage_eq_ok, bind_eq_ok, pure_eq_ok, Except.ok.injEq,
      Prod.mk.injEq] at hcall
    obtain ⟨-, t, -, -, -, rfl⟩ := hcall
    have hsame : { s.vol.setInode p (s.vol.inode p) with disk := s.vol.disk } = s.vol := by
      simp only [Volume.setInode, Function.update_eq_self]
    refine h.putBack ?_ rfl
    show Through { s.vol.setInode p (s.vol.inode p) with disk := s.vol.disk }
    rw [hsame]
    exact h.cached.through

theorem Kept.sysLseek (h : Kept s) {offset whence ret : Int}
    (hseek : sysLseek s fd offset whence = .ok (ret, s')) : Kept s' := by
  simp only [WriteThrough.sysLseek, bind_eq_ok, deref_eq_ok] at hseek
  obtain ⟨f, -, hseek⟩ := hseek
  split_ifs at hseek
  · simp only [pure_eq_ok, Except.ok.injEq, Prod.mk.injEq] at hseek
    exact hseek.2 ▸ h.setPos f _
  · simp only [pure_eq_ok, Except.ok.injEq, Prod.mk.injEq] at hseek
    exact hseek.2 ▸ h.setPos f _
  · simp only [bind_eq_ok, deref_eq_ok, pure_eq_ok, Except.ok.injEq, Prod.mk.injEq] at hseek
    obtain ⟨d, -, p, -, -, rfl⟩ := hseek
    exact h.setPos f _
  · simp only [pure_eq_ok, Except.ok.injEq, Prod.mk.injEq] at hseek
    exact hseek.2 ▸ h

/-- Every returning call that is ready and whole. -/
theorem Kept.step {a : Call} (h : Kept s) (hready : Ready s a) (hwhole : Whole s a)
    (st : Step s a s') : Kept s' := by
  obtain ⟨fuel, st⟩ := st
  cases a with
  | «open» pathname flags env =>
    simp only [call, bind_eq_ok, pure_eq_ok, Except.ok.injEq] at st
    obtain ⟨⟨r, s₁⟩, hopen, rfl⟩ := st
    exact h.sysOpen hready hopen
  | close fd env => exact h.sysClose st
  | truncate pathname length env =>
    simp only [call, bind_eq_ok, pure_eq_ok, Except.ok.injEq] at st
    obtain ⟨⟨r, s₁⟩, htrunc, rfl⟩ := st
    exact h.sysTruncate hready hwhole htrunc
  | read fd count found usr =>
    simp only [call, bind_eq_ok, pure_eq_ok, Except.ok.injEq] at st
    obtain ⟨⟨r, s₁⟩, hread, rfl⟩ := st
    exact h.sysRead hread
  | write fd count found usr ptrs =>
    simp only [call, bind_eq_ok, pure_eq_ok, Except.ok.injEq] at st
    obtain ⟨⟨r, s₁⟩, hwrite, rfl⟩ := st
    exact h.sysWrite hready hwrite
  | lseek fd offset whence =>
    simp only [call, bind_eq_ok, pure_eq_ok, Except.ok.injEq] at st
    obtain ⟨⟨r, s₁⟩, hseek, rfl⟩ := st
    exact h.sysLseek hseek

theorem Kept.break {a : Call} (h : Kept s) (hready : Ready s a) (hcut : ¬Whole s a)
    (st : Step s a s') : ¬WrittenThrough s' := by
  obtain ⟨fuel, st⟩ := st
  cases a with
  | truncate pathname length env =>
    simp only [call, bind_eq_ok, pure_eq_ok, Except.ok.injEq] at st
    obtain ⟨⟨r, s₁⟩, htrunc, rfl⟩ := st
    exact h.cut hready hcut htrunc
  | «open» pathname flags env => exact absurd trivial hcut
  | close fd env => exact absurd trivial hcut
  | read fd count found usr => exact absurd trivial hcut
  | write fd count found usr ptrs => exact absurd trivial hcut
  | lseek fd offset whence => exact absurd trivial hcut

end Calls

/-! ## Runs -/

section Runs

variable {memory : FsState} {disk : Disk} {ptrs : Pointers}

theorem Table.formatted {disk' : Disk}
    (hdisk : wordAt (byteAt (disk 1)) 0 4 = superMagic → Table disk)
    (h : formatted disk ptrs = .ok disk') : Table disk' := by
  rw [DentryCache.formatted] at h
  split_ifs at h with hmagic
  · simp only [pure_eq_ok, Except.ok.injEq] at h
    exact h ▸ hdisk hmagic
  · exact Table.mkfs h

/-- fs_init, on a disk without a file system or with a sound one. -/
theorem Kept.fsInit (hdisk : wordAt (byteAt (disk 1)) 0 4 = superMagic → Table disk)
    (hinit : fsInit memory disk ptrs = .ok s) : Kept s := by
  obtain ⟨hlist, hroot, hinodes, -, hcount, -, hfiles, -⟩ := fsInit_ok hinit
  have hrooted := Rooted.fsInit hinit
  have hlink : (s.dentry .root).dInode = some .root := by rw [hroot]
  have hthrough : Through s.vol := by
    simp only [DentryCache.fsInit, bind_eq_ok, access_eq_ok, pure_eq_ok, Except.ok.injEq] at hinit
    obtain ⟨disk', hformat, _, -, inode, hread, hs⟩ := hinit
    obtain ⟨-, -, -, -, -, hdecode⟩ := readInode_ok hread
    have hself : stored disk' 1 = onDisk inode := by
      rw [hdecode, onDisk_decode, stored]
    clear hdecode
    have hvol : s.vol = ⟨disk', Function.update memory.vol.inode .root { inode with iRefcnt := 1 },
        [.root]⟩ := by
      rw [← hs]
      simp [dlinkInode, addRef, addInodeRef, FsState.setDentry, Volume.setInode]
    rw [hvol]
    have hroot : onDisk { inode with iRefcnt := 1 } = onDisk inode := rfl
    exact Through.start (Table.formatted hdisk hformat) (hself.trans hroot.symm)
  refine ⟨⟨hthrough, hrooted, fun x hx q hq => ?_, fun q hq => ?_, fun q hq => ?_⟩, fun f hf => ?_⟩
  · rw [hlist] at hx
    rw [List.mem_singleton.mp hx, hlink] at hq
    rw [← Option.some.inj hq]
    exact hthrough.root.1
  · rw [hlink] at hq
    exact (Option.some.inj hq).symm
  · rw [hinodes] at hq
    have hnone : OpenSafety.links s q = ∅ := by
      apply Finset.eq_empty_of_forall_notMem
      intro x hx
      obtain ⟨hmem, hne, -⟩ := OpenSafety.mem_links.mp hx
      rw [hlist] at hmem
      exact hne (List.mem_singleton.mp hmem)
    rw [List.mem_singleton.mp hq] at hnone ⊢
    rw [held, hnone, if_pos hlink, hcount, Finset.card_empty]
    decide
  · rw [hfiles] at hf
    cases hf

/-- Along every run from fs_init whose calls are ready the inodes in memory are written through,
exactly as long as no sys_truncate cuts a file. -/
theorem written_through_iff (hdisk : wordAt (byteAt (disk 1)) 0 4 = superMagic → Table disk)
    (hinit : fsInit memory disk ptrs = .ok s) {tr : List (Call × FsState)} (hrun : Exec Step s tr)
    (hready : Guarded Ready s tr) : Always WrittenThrough s tr ↔ Guarded Whole s tr := by
  have hstart : Kept s := .fsInit hdisk hinit
  have hboth : ∀ s a s', Kept s → Whole s a → Ready s a ∧ Step s a s' → Kept s' :=
    fun _ _ _ h hwhole st => h.step st.1 hwhole st.2
  have hbreak : ∀ s a s', Kept s → ¬Whole s a → Ready s a ∧ Step s a s' → ¬WrittenThrough s' :=
    fun _ _ _ h hcut st => h.break st.1 hcut st.2
  exact (hrun.guarded hready).always_iff_guarded (fun _ => Kept.writtenThrough) hboth hbreak hstart

end Runs

/-! ## A file is written and cut -/

/-- `open("/a", O_CREAT)` -/
def createA : Call := .open (rootPath [97]) 1 plainEnv

/-- Three bytes go to descriptor 0. -/
def writeA : Call := .write 0 3 cleared (fun _ => 97) fun _ => 0

/-- `truncate("/a", 0)` -/
def cutA : Call := .truncate (rootPath [97]) 0 plainEnv

/-- The states of the three calls after the start on a zeroed disk. -/
structure CutStates where
  boot : FsState
  created : FsState
  written : FsState
  cut : FsState

def cutStates : Kernel CutStates := do
  let boot ← bootBlank
  let created ← call 2 boot createA
  let written ← call 2 created writeA
  let cut ← call 2 written cutA
  pure ⟨boot, created, written, cut⟩

def CutStates.run (r : CutStates) : List (Call × FsState) :=
  [(createA, r.created), (writeA, r.written), (cutA, r.cut)]

/-- Every call is ready; the cut is in memory only, and the record names a block that is free. -/
def Forgotten (r : CutStates) : Prop :=
  (0 ≤ (r.boot.vol.inode (AliasLists.nextInode r.boot plainEnv)).iRefcnt ∧
      ¬MapBit r.boot.vol.disk super.sImapStart 2) ∧
    (r.created.filp 0 = some 0 ∧ 0 ∈ r.created.files) ∧
    0 ≤ (r.written.vol.inode (AliasLists.nextInode r.written plainEnv)).iRefcnt ∧
    .obj 0 ∈ r.cut.vol.inodeList ∧ (r.cut.vol.inode (.obj 0)).iSize = 0 ∧
    (stored r.cut.vol.disk (r.cut.vol.inode (.obj 0)).iInum).iSize = 3 ∧
    ¬MapBit r.cut.vol.disk super.sZmapStart
      ((stored r.cut.vol.disk (r.cut.vol.inode (.obj 0)).iInum).iZone 0)

instance (r : CutStates) : Decidable (Forgotten r) := inferInstanceAs (Decidable (_ ∧ _))

theorem cutStates_run : ∃ r, cutStates = .ok r ∧ Forgotten r := by
  have hrun : (match cutStates with
      | .ok r => decide (Forgotten r)
      | .error _ => false) = true := by decide +kernel
  split at hrun
  swap
  · cases hrun
  rename_i r hr
  exact ⟨r, hr, of_decide_eq_true hrun⟩

theorem cutStates_ok {r : CutStates} (h : cutStates = .ok r) :
    bootBlank = .ok r.boot ∧ Exec Step r.boot r.run := by
  simp only [cutStates, bind_eq_ok, pure_eq_ok, Except.ok.injEq] at h
  obtain ⟨boot, hboot, created, hcreated, written, hwritten, cut, hcut, rfl⟩ := h
  exact ⟨hboot, .cons ⟨2, hcreated⟩ (.cons ⟨2, hwritten⟩ (.cons ⟨2, hcut⟩ (.nil _)))⟩

/-- As long as the file is only created and written its record follows it. -/
theorem written_through_created : ∃ s tr, bootBlank = .ok s ∧ tr.length = 2 ∧ Exec Step s tr ∧
    Always WrittenThrough s tr := by
  obtain ⟨r, hr, ⟨hspare, hbit⟩, ⟨hfilp, hlive⟩, -⟩ := cutStates_run
  obtain ⟨hboot, hall⟩ := cutStates_ok hr
  have hrun : Exec Step r.boot [(createA, r.created), (writeA, r.written)] := by
    cases hall with
    | cons hcreate hrest =>
      cases hrest with
      | cons hwrite _ => exact .cons hcreate (.cons hwrite (.nil _))
  have hopen : Ready r.boot createA := fun path _ =>
    ⟨fun _ => hspare, fun _ _ => ⟨2, by decide, hbit⟩⟩
  have hwrite : Ready r.created writeA := by
    intro f hf
    rw [hfilp] at hf
    exact Option.some.inj hf ▸ hlive
  have hready : Guarded Ready r.boot [(createA, r.created), (writeA, r.written)] :=
    ⟨hopen, hwrite, trivial⟩
  have hblank : wordAt (byteAt zeroBlock) 0 4 = superMagic → Table fun _ => zeroBlock := by
    intro hmagic
    exact absurd hmagic (by decide)
  exact ⟨r.boot, _, hboot, rfl, hrun,
    (written_through_iff hblank hboot hrun hready).mpr ⟨trivial, trivial, trivial⟩⟩

/-- The record of a file that was cut keeps the old size, and its zones that are free again. -/
theorem cut_not_written : ∃ s tr, bootBlank = .ok s ∧ Exec Step s tr ∧
    ¬Always WrittenThrough s tr ∧ ∃ p ∈ (last s tr).vol.inodeList,
      ¬ZoneBit (last s tr).vol.disk
        ((stored (last s tr).vol.disk ((last s tr).vol.inode p).iInum).iZone 0) := by
  obtain ⟨r, hr, -, -, -, hlist, hsize, hstored, hfree⟩ := cutStates_run
  obtain ⟨hboot, hrun⟩ := cutStates_ok hr
  refine ⟨r.boot, r.run, hboot, hrun, fun hall => ?_, .obj 0, hlist, hfree⟩
  have hcut := hall.2 (cutA, r.cut) (by simp [CutStates.run])
  have hsame := hcut.size (.obj 0) hlist
  rw [hstored, hsize] at hsame
  exact absurd hsame (by decide)

end RxdOs.Fs.WriteThrough
