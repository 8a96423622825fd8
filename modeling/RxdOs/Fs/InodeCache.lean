/- RxdOs/Fs/InodeCache
   source: fs/fs.c (create_inode, get_inode, put_inode, mkfs)
   digest: The inodes in memory: inode_list, and creating, looking up and putting inodes. -/

import RxdOs.Fs.Zone

set_option autoImplicit false
set_option relaxedAutoImplicit false

namespace RxdOs.Fs.InodeCache

open RxdOs.Base.Assert RxdOs.Fs.Bitmap RxdOs.Fs.Layout RxdOs.Fs.Zone

/-- A `struct inode *`: the static root_inode, or an object of inode_cache. -/
inductive InodePtr
  | root
  | obj (addr : Nat)
  deriving DecidableEq

/-- The objects of inode_cache that are handed out are the ones on inode_list.  An i_refcnt that
starts small does not wrap: sys_open adds to it, a few times for each of the 4095 characters of a
path at most, and every call keeps one of the 3840 pages. -/
structure Volume where
  disk : Disk
  inode : InodePtr → Inode
  inodeList : List InodePtr

def Volume.setInode (v : Volume) (p : InodePtr) (inode : Inode) : Volume :=
  { v with inode := Function.update v.inode p inode }

/-- kmem_cache_alloc(inode_cache), with the object it happens to return. -/
def allocInode (v : Volume) (addr : Nat) : Kernel InodePtr := do
  access (.obj addr ∉ v.inodeList) "kmem_cache_alloc(inode_cache)"
  pure (.obj addr)

def allocInodeNr (disk : Disk) : Kernel (Nat × Disk) :=
  bitmapAlloc disk super.sImapCount super.sImapStart 0

def freeInodeNr (disk : Disk) (inum : Nat) : Kernel Disk :=
  bitmapFree disk super.sImapStart (super.sImapStart + super.sImapCount) inum

/-- An inode as create_inode fills it in. -/
def newInode (inum mode : Nat) : Inode where
  iInum := inum
  iSize := 0
  iMode := mode
  iNlink := 0
  iZone := fun _ => 0
  iRefcnt := 1

/-- create_inode; a full bitmap panics, so the number is never -1. -/
def createInode (v : Volume) (mode addr : Nat) (ptrs : Pointers) : Kernel (InodePtr × Volume) := do
  let (inum, disk) ← allocInodeNr v.disk
  let p ← allocInode v addr
  let inode := newInode inum mode
  let disk ← writeInode disk inode ptrs
  pure (p, ⟨disk, Function.update v.inode p inode, p :: v.inodeList⟩)

/-- get_inode; an inode read from the disk keeps the i_refcnt its memory held. -/
def getInode (v : Volume) (inum addr : Nat) : Kernel (InodePtr × Volume) := do
  match v.inodeList.find? fun p => (v.inode p).iInum = inum ∧ (v.inode p).iRefcnt ≠ 0 with
  | some p =>
    pure (p, v.setInode p { v.inode p with iRefcnt := (v.inode p).iRefcnt + 1 })
  | none =>
    let p ← allocInode v addr
    let inode ← readInode v.disk (v.inode p) inum
    let inode := { inode with iRefcnt := inode.iRefcnt + 1 }
    pure (p, ⟨v.disk, Function.update v.inode p inode, p :: v.inodeList⟩)

/-- The last put of an inode without links: its zones and its number go back. -/
def deleteInode (disk : Disk) (inode : Inode) : Kernel (Disk × Inode) := do
  let (disk, inode) ← reserveZone disk inode 0 true
  let disk ← freeInodeNr disk inode.iInum
  pure (disk, inode)

/-- put_inode.  No dentry is linked to an inode that is deleted. -/
def putInode (v : Volume) (p : InodePtr) (ptrs : Pointers) : Kernel Volume := do
  assert ((v.inode p).iRefcnt > 0) "inode && inode->i_refcnt > 0"
  let inode := { v.inode p with iRefcnt := (v.inode p).iRefcnt - 1 }
  if inode.iRefcnt = 0 then
    let (disk, inode) ←
      if inode.iNlink = 0 then do
        assert (p ≠ .root) "list_empty(&inode->i_dentry) && inode != &root_inode"
        deleteInode v.disk inode
      else do
        let disk ← writeInode v.disk inode ptrs
        pure (disk, inode)
    -- root_inode lies in no slab, so freeing it stops in __check_slab
    access (p ≠ .root) "kmem_cache_free(inode_cache, inode)"
    pure ⟨disk, Function.update v.inode p inode, v.inodeList.erase p⟩
  else pure (v.setInode p inode)

/-- A volume after mkfs, which fills in the static root inode; `memory` is what the inode
objects hold. -/
def mkfsVolume (memory : InodePtr → Inode) (disk : Disk) (ptrs : Pointers) : Kernel Volume := do
  let disk ← mkfs disk ptrs
  pure ⟨disk, Function.update memory .root mkfsRoot, [.root]⟩

/-! ## The inode bitmap -/

theorem inodeBit_setBit {disk : Disk} {b k : Nat} (hb : b < sectorBits) :
    InodeBit (Function.update disk super.sImapStart (setBit (disk super.sImapStart) b)) k ↔
      k = b ∨ InodeBit disk k := by
  have h := @mapBit_setBit disk super.sImapStart b k
  rwa [Nat.div_eq_of_lt hb, Nat.mod_eq_of_lt hb, Nat.add_zero] at h

theorem inodeBit_unsetBit {disk : Disk} {b k : Nat} (hb : b < sectorBits) :
    InodeBit (Function.update disk super.sImapStart (unsetBit (disk super.sImapStart) b)) k ↔
      k ≠ b ∧ InodeBit disk k := by
  have h := @mapBit_unsetBit disk super.sImapStart b k
  rwa [Nat.div_eq_of_lt hb, Nat.mod_eq_of_lt hb, Nat.add_zero] at h

/-- alloc_inode_nr takes the lowest free number and touches the inode bitmap only. -/
theorem allocInodeNr_ok {disk disk' : Disk} {n : Nat} (h : allocInodeNr disk = .ok (n, disk')) :
    n < sectorBits ∧ ¬InodeBit disk n ∧ (∀ j < n, InodeBit disk j) ∧
      (∀ k, InodeBit disk' k ↔ k = n ∨ InodeBit disk k) ∧
      ∀ b, b ≠ super.sImapStart → disk' b = disk b := by
  obtain ⟨k, hk, rfl, hzero, hones, rfl⟩ := bitmapAlloc_ok (by decide) h
  have hk' : k < sectorBits := by simpa [super] using hk
  rw [Nat.div_eq_of_lt hk', Nat.mod_eq_of_lt hk', Nat.zero_add, Nat.add_zero]
  exact ⟨hk', hzero, hones, fun j => inodeBit_setBit hk', fun b hb => Function.update_of_ne hb ..⟩

theorem allocInodeNr_of_free {disk : Disk} {n : Nat} (hn : n < sectorBits)
    (hfree : ¬InodeBit disk n) : ∃ r, allocInodeNr disk = .ok r :=
  bitmapAlloc_of_free (by simpa [super] using hn) hfree

theorem freeInodeNr_ok {disk disk' : Disk} {n : Nat} (h : freeInodeNr disk n = .ok disk') :
    n < sectorBits ∧ (∀ k, InodeBit disk' k ↔ k ≠ n ∧ InodeBit disk k) ∧
      ∀ b, b ≠ super.sImapStart → disk' b = disk b := by
  obtain ⟨hlt, rfl⟩ := bitmapFree_ok h
  have hn : n < sectorBits := by simpa [super] using hlt
  rw [Nat.div_eq_of_lt hn, Nat.mod_eq_of_lt hn, Nat.add_zero]
  exact ⟨hn, fun k => inodeBit_unsetBit hn, fun b hb => Function.update_of_ne hb ..⟩

/-- create_inode: the lowest free number, its record, and a new inode on the list. -/
theorem createInode_ok {v v' : Volume} {mode addr : Nat} {ptrs : Pointers} {p : InodePtr}
    (h : createInode v mode addr ptrs = .ok (p, v')) :
    p = .obj addr ∧ p ∉ v.inodeList ∧ ∃ n disk,
      allocInodeNr v.disk = .ok (n, disk) ∧ n ≠ 0 ∧
      writeInode disk (newInode n mode) ptrs = .ok v'.disk ∧
      v'.inode = Function.update v.inode p (newInode n mode) ∧ v'.inodeList = p :: v.inodeList := by
  simp only [createInode, allocInode, bind_eq_ok, access_eq_ok, pure_eq_ok, Except.ok.injEq,
    Prod.mk.injEq] at h
  obtain ⟨⟨n, disk⟩, halloc, _, ⟨_, hfresh, rfl⟩, disk', hrec, rfl, rfl⟩ := h
  exact ⟨rfl, hfresh, n, disk, halloc, (writeInode_ok hrec).1, hrec, rfl, rfl⟩

/-- put_inode drops one reference; the last one deletes or stores the inode. -/
theorem putInode_ok {v v' : Volume} {p : InodePtr} {ptrs : Pointers}
    (h : putInode v p ptrs = .ok v') :
    0 < (v.inode p).iRefcnt ∧
      (((v.inode p).iRefcnt ≠ 1 ∧
          v' = v.setInode p { v.inode p with iRefcnt := (v.inode p).iRefcnt - 1 }) ∨
        (v.inode p).iRefcnt = 1 ∧ p ≠ .root ∧ v'.inodeList = v.inodeList.erase p ∧
          (∀ q, q ≠ p → v'.inode q = v.inode q) ∧
          (((v.inode p).iNlink = 0 ∧ deleteInode v.disk { v.inode p with iRefcnt := 0 } =
              .ok (v'.disk, v'.inode p)) ∨
            (v.inode p).iNlink ≠ 0 ∧ v'.inode p = { v.inode p with iRefcnt := 0 } ∧
              writeInode v.disk { v.inode p with iRefcnt := 0 } ptrs = .ok v'.disk)) := by
  simp only [putInode, bind_eq_ok, assert_eq_ok] at h
  obtain ⟨_, hpos, h⟩ := h
  refine ⟨hpos, ?_⟩
  have hone : (v.inode p).iRefcnt - 1 = 0 ↔ (v.inode p).iRefcnt = 1 := by omega
  split_ifs at h with hlast hlink
  · rw [hlast] at h
    simp only [bind_eq_ok, assert_eq_ok, access_eq_ok, pure_eq_ok, Except.ok.injEq] at h
    obtain ⟨_, hroot, ⟨disk, inode⟩, hdel, _, -, rfl⟩ := h
    refine .inr ⟨hone.mp hlast, hroot, rfl, fun q hq => Function.update_of_ne hq .., .inl ⟨hlink, ?_⟩⟩
    simp only [hdel, Function.update_self]
  · rw [hlast] at h
    simp only [bind_eq_ok, access_eq_ok, pure_eq_ok, Except.ok.injEq] at h
    obtain ⟨disk, hrec, _, rfl, _, hroot, rfl⟩ := h
    exact .inr ⟨hone.mp hlast, hroot, rfl, fun q hq => Function.update_of_ne hq ..,
      .inr ⟨hlink, Function.update_self .., hrec⟩⟩
  · simp only [pure_eq_ok, Except.ok.injEq] at h
    exact .inl ⟨fun heq => hlast (hone.mpr heq), h.symm⟩

/-- The number and the count of an inode that read_inode has filled in. -/
theorem readInode_ok {disk : Disk} {inode inode' : Inode} {inum : Nat}
    (h : readInode disk inode inum = .ok inode') : inum ≠ 0 ∧ inum < sectorBits ∧
      InodeBit disk inum ∧ inode'.iInum = inum ∧ inode'.iRefcnt = inode.iRefcnt ∧
      inode' = decode (disk (inodeBlk inum)) (inodeOff inum) inode.iRefcnt := by
  simp only [readInode, bind_eq_ok, assert_eq_ok] at h
  obtain ⟨_, hne, found, htest, h⟩ := h
  obtain ⟨hlt, hfound⟩ := bitmapTest_ok htest
  split_ifs at h with hf
  simp only [bind_eq_ok, assert_eq_ok, pure_eq_ok, Except.ok.injEq] at h
  obtain ⟨_, hinum, rfl⟩ := h
  exact ⟨hne, by simpa [super] using hlt, hfound.mp hf, hinum.symm, rfl, rfl⟩

/-- The search of get_inode through inode_list. -/
def findInode (v : Volume) (inum : Nat) : Option InodePtr :=
  v.inodeList.find? fun p => (v.inode p).iInum = inum ∧ (v.inode p).iRefcnt ≠ 0

/-- get_inode counts one more reference to a listed inode, or reads one in and lists it. -/
theorem getInode_ok {v v' : Volume} {inum addr : Nat} {p : InodePtr}
    (h : getInode v inum addr = .ok (p, v')) :
    (findInode v inum = some p ∧
        v' = v.setInode p { v.inode p with iRefcnt := (v.inode p).iRefcnt + 1 }) ∨
      findInode v inum = none ∧ p = .obj addr ∧ p ∉ v.inodeList ∧ ∃ inode,
        readInode v.disk (v.inode p) inum = .ok inode ∧
        v' = ⟨v.disk, Function.update v.inode p { inode with iRefcnt := inode.iRefcnt + 1 },
          p :: v.inodeList⟩ := by
  unfold getInode at h
  rw [show (v.inodeList.find? fun p => (v.inode p).iInum = inum ∧ (v.inode p).iRefcnt ≠ 0) =
    findInode v inum from rfl] at h
  cases hfind : findInode v inum with
  | some q =>
    rw [hfind] at h
    simp only [pure_eq_ok, Except.ok.injEq, Prod.mk.injEq] at h
    obtain ⟨rfl, rfl⟩ := h
    exact .inl ⟨rfl, rfl⟩
  | none =>
    rw [hfind] at h
    simp only [allocInode, bind_eq_ok, access_eq_ok, pure_eq_ok, Except.ok.injEq,
      Prod.mk.injEq] at h
    obtain ⟨_, ⟨_, hfresh, rfl⟩, inode, hread, rfl, rfl⟩ := h
    exact .inr ⟨rfl, rfl, hfresh, inode, hread, rfl⟩

theorem findInode_some {v : Volume} {inum : Nat} {p : InodePtr} (h : findInode v inum = some p) :
    p ∈ v.inodeList ∧ (v.inode p).iInum = inum ∧ (v.inode p).iRefcnt ≠ 0 := by
  have hprop := List.find?_some h
  exact ⟨List.mem_of_find?_eq_some h, by simpa using hprop⟩

theorem mkfsVolume_ok {memory : InodePtr → Inode} {disk : Disk} {ptrs : Pointers} {v : Volume}
    (h : mkfsVolume memory disk ptrs = .ok v) :
    v.inodeList = [.root] ∧ v.inode .root = mkfsRoot ∧
      (∀ n < sectorBits, InodeBit v.disk n ↔ n < 2) ∧
      ∀ b < sectorBits, ZoneBit v.disk b ↔ b < super.sDataStart := by
  simp only [mkfsVolume, bind_eq_ok, pure_eq_ok, Except.ok.injEq] at h
  obtain ⟨disk', hmkfs, rfl⟩ := h
  exact ⟨rfl, by simp only [Function.update_self], mkfs_ok hmkfs⟩

theorem mkfsVolume_total (memory : InodePtr → Inode) (disk : Disk) (ptrs : Pointers) :
    ∃ v, mkfsVolume memory disk ptrs = .ok v := by
  obtain ⟨disk', hmkfs⟩ := mkfs_total disk ptrs
  exact ⟨_, by rw [mkfsVolume, hmkfs]; rfl⟩

end RxdOs.Fs.InodeCache
