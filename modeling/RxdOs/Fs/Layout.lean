/- RxdOs/Fs/Layout
   source: fs/fs.c (read_inode, write_inode, write_super, mkfs), include/fs.h
   digest: The layout mkfs gives the disk, and the inode records in it. -/

import RxdOs.Base.Int32
import RxdOs.Fs.Bitmap

set_option autoImplicit false
set_option relaxedAutoImplicit false

namespace RxdOs.Fs.Layout

open RxdOs.Base.Assert RxdOs.Base.Int32 RxdOs.Fs.Bitmap

structure SuperBlock where
  sMagic : Nat
  sImapStart : Nat
  sImapCount : Nat
  sZmapStart : Nat
  sZmapCount : Nat
  sItableStart : Nat
  sItableCount : Nat
  sDataStart : Nat
  sDev : Nat

/-- The static super block, as mkfs sets it. -/
def super : SuperBlock where
  sMagic := 0x12345678
  sImapStart := 2
  sImapCount := 1
  sZmapStart := 3
  sZmapCount := 1
  sItableStart := 4
  sItableCount := 6
  sDataStart := 10
  sDev := 3

/-- The numbers in a `struct inode`; i_super always points to the one super block, and
the list links are kept by the lists themselves. -/
structure Inode where
  iInum : Nat
  iSize : Int
  iMode : Nat
  iNlink : Int
  iZone : Fin 9 → Nat
  iRefcnt : Int

/-- An inode has zones. -/
instance neZeroZones : NeZero 9 := ⟨by decide⟩

def sizeofInode : Nat := 72

/-- What the pointer fields i_super, i_list and i_dentry hold in memory. -/
abbrev Pointers := Fin 20 → UInt8

/-- The bytes of a `struct inode`. -/
def record (inode : Inode) (ptrs : Pointers) (i : Nat) : UInt8 :=
  if i < 4 then byteOf inode.iInum i
  else if i < 8 then byteOf inode.iSize (i - 4)
  else if i < 10 then byteOf inode.iMode (i - 8)
  else if i < 12 then byteOf inode.iNlink (i - 10)
  else if h : i < 48 then byteOf (inode.iZone ⟨(i - 12) / 4, by omega⟩) (i % 4)
  else if h : i < 68 then ptrs ⟨i - 48, by omega⟩
  else byteOf inode.iRefcnt (i - 68)

/-- `memcpy(b_data + off, src, n)` -/
def store (block : Block) (off n : Nat) (src : Nat → UInt8) : Block := fun i =>
  if off ≤ i.val ∧ i.val < off + n then src (i.val - off) else block i

def inodePerBlk : Nat := blockSize / sizeofInode

/-- The block of the inode table that `inum` is kept in. -/
def inodeBlk (inum : Nat) : Nat := inum / inodePerBlk + super.sItableStart

def inodeOff (inum : Nat) : Nat := inum % inodePerBlk * sizeofInode

def testInodeNr (disk : Disk) (inum : Nat) : Kernel Bool :=
  bitmapTest disk super.sImapStart (super.sImapStart + super.sImapCount) inum

def writeInode (disk : Disk) (inode : Inode) (ptrs : Pointers) : Kernel Disk := do
  assert (inode.iInum ≠ 0) "inode && inode->i_inum && inode->i_super == &super"
  let found ← testInodeNr disk inode.iInum
  if found = true then
    let blknr := inodeBlk inode.iInum
    pure (Function.update disk blknr
      (store (disk blknr) (inodeOff inode.iInum) sizeofInode (record inode ptrs)))
  else .error (.panic "write non-exist inode")

/-- The numbers in the record at `off`. -/
def decode (block : Block) (off : Nat) (iRefcnt : Int) : Inode where
  iInum := wordAt (byteAt block) off 4
  iSize := signedAt (byteAt block) (off + 4) 4
  iMode := wordAt (byteAt block) (off + 8) 2
  iNlink := signedAt (byteAt block) (off + 10) 2
  iZone k := wordAt (byteAt block) (off + 12 + 4 * k) 4
  iRefcnt := iRefcnt

/-- read_inode; i_refcnt keeps what the object held. -/
def readInode (disk : Disk) (inode : Inode) (inum : Nat) : Kernel Inode := do
  assert (inum ≠ 0) "inum && sb == &super"
  let found ← testInodeNr disk inum
  if found = true then
    let dInode := decode (disk (inodeBlk inum)) (inodeOff inum) inode.iRefcnt
    assert (inum = dInode.iInum) "inode->i_inum == d_inode.i_inum"
    pure dInode
  else .error (.panic "read non-exist inode")

/-- The bytes of the super block. -/
def superRecord (i : Nat) : UInt8 :=
  let fields := [super.sMagic, super.sImapStart, super.sImapCount, super.sZmapStart,
    super.sZmapCount, super.sItableStart, super.sItableCount, super.sDataStart, super.sDev]
  byteOf (fields.getD (i / 4) 0 : Nat) (i % 4)

def writeSuper (disk : Disk) : Disk :=
  Function.update disk 1 (store (disk 1) 0 36 superRecord)

def zeroBlock : Block := fun _ => 0

/-- The root inode as mkfs fills it in. -/
def mkfsRoot : Inode where
  iInum := 1
  iSize := 0
  iMode := 0
  iNlink := 2
  iZone := fun _ => 0
  iRefcnt := 1

def mkfs (disk : Disk) (ptrs : Pointers) : Kernel Disk :=
  let disk := writeSuper disk
  let disk := Function.update disk super.sImapStart (setNBit zeroBlock 2)
  let disk := Function.update disk super.sZmapStart (setNBit zeroBlock super.sDataStart)
  writeInode disk mkfsRoot ptrs

/-! ## The maps of the layout -/

/-- Inode number `n` is taken. -/
def InodeBit (disk : Disk) (n : Nat) : Prop := MapBit disk super.sImapStart n

/-- Block `b` is taken. -/
def ZoneBit (disk : Disk) (b : Nat) : Prop := MapBit disk super.sZmapStart b

theorem inodeBit_congr {disk disk' : Disk} (h : disk' 2 = disk 2) {n : Nat} (hn : n < sectorBits) :
    InodeBit disk' n ↔ InodeBit disk n :=
  mapBit_congr (by rw [Nat.div_eq_of_lt hn]; exact h)

theorem zoneBit_congr {disk disk' : Disk} (h : disk' 3 = disk 3) {b : Nat} (hb : b < sectorBits) :
    ZoneBit disk' b ↔ ZoneBit disk b :=
  mapBit_congr (by rw [Nat.div_eq_of_lt hb]; exact h)

/-- write_inode goes to the block of its number, never below the inode table. -/
theorem writeInode_ok {disk disk' : Disk} {inode : Inode} {ptrs : Pointers}
    (h : writeInode disk inode ptrs = .ok disk') :
    inode.iInum ≠ 0 ∧ inode.iInum < sectorBits ∧ InodeBit disk inode.iInum ∧
      disk' = Function.update disk (inodeBlk inode.iInum) (store (disk (inodeBlk inode.iInum))
        (inodeOff inode.iInum) sizeofInode (record inode ptrs)) := by
  simp only [writeInode, bind_eq_ok, assert_eq_ok] at h
  obtain ⟨_, hne, found, htest, h⟩ := h
  obtain ⟨hlt, hfound⟩ := bitmapTest_ok htest
  split_ifs at h with hf
  simp only [pure_eq_ok, Except.ok.injEq] at h
  refine ⟨hne, ?_, hfound.mp hf, h.symm⟩
  simpa [super] using hlt

theorem testInodeNr_of_bit {disk : Disk} {inum : Nat} (hlt : inum < sectorBits)
    (hbit : InodeBit disk inum) : testInodeNr disk inum = .ok true := by
  have hin : inum < (super.sImapStart + super.sImapCount - super.sImapStart) * sectorBits := by
    simpa [super] using hlt
  rw [testInodeNr, bitmapTest_of_lt disk (by decide) hin, decide_eq_true (show MapBit _ _ _ from hbit)]

theorem writeInode_of_bit {disk : Disk} {inode : Inode} (ptrs : Pointers) (hne : inode.iInum ≠ 0)
    (hlt : inode.iInum < sectorBits) (hbit : InodeBit disk inode.iInum) :
    ∃ disk', writeInode disk inode ptrs = .ok disk' := by
  have htest := testInodeNr_of_bit hlt hbit
  simp [writeInode, assert_pos hne, htest]

/-- read_inode of a number that is in use gives the record, with the object's i_refcnt. -/
theorem readInode_of_bit {disk : Disk} {inum : Nat} (hne : inum ≠ 0) (hlt : inum < sectorBits)
    (hbit : InodeBit disk inum)
    (hnumber : (decode (disk (inodeBlk inum)) (inodeOff inum) 0).iInum = inum) (inode : Inode) :
    readInode disk inode inum =
      .ok (decode (disk (inodeBlk inum)) (inodeOff inum) inode.iRefcnt) := by
  have hsame : inum = (decode (disk (inodeBlk inum)) (inodeOff inum) inode.iRefcnt).iInum :=
    hnumber.symm
  simp only [readInode, assert_pos hne, testInodeNr_of_bit hlt hbit, ok_bind, if_true,
    assert_pos hsame, pure_eq_ok]

/-- Every block below the inode table survives write_inode. -/
theorem writeInode_below {disk disk' : Disk} {inode : Inode} {ptrs : Pointers}
    (h : writeInode disk inode ptrs = .ok disk') {b : Nat} (hb : b < super.sItableStart) :
    disk' b = disk b := by
  obtain ⟨-, -, -, rfl⟩ := writeInode_ok h
  exact Function.update_of_ne (hb.trans_le (Nat.le_add_left _ _)).ne ..

theorem mkfs_ok {disk disk' : Disk} {ptrs : Pointers} (h : mkfs disk ptrs = .ok disk') :
    (∀ n < sectorBits, InodeBit disk' n ↔ n < 2) ∧
      ∀ b < sectorBits, ZoneBit disk' b ↔ b < super.sDataStart := by
  have hzero : ∀ i, byteAt zeroBlock i = 0 := by simp [byteAt, zeroBlock]
  refine ⟨fun n hn => ?_, fun b hb => ?_⟩
  · rw [InodeBit, MapBit, Nat.div_eq_of_lt hn, Nat.mod_eq_of_lt hn, Nat.add_zero,
      writeInode_below h (by decide), Function.update_of_ne (by decide), Function.update_self]
    exact bitAt_setNBit hzero (by decide) n
  · rw [ZoneBit, MapBit, Nat.div_eq_of_lt hb, Nat.mod_eq_of_lt hb, Nat.add_zero,
      writeInode_below h (by decide), Function.update_self]
    exact bitAt_setNBit hzero (by decide) b

/-- mkfs always returns. -/
theorem mkfs_total (disk : Disk) (ptrs : Pointers) : ∃ disk', mkfs disk ptrs = .ok disk' := by
  have hzero : ∀ i, byteAt zeroBlock i = 0 := by simp [byteAt, zeroBlock]
  refine writeInode_of_bit ptrs (by decide) (by decide) ?_
  rw [InodeBit, MapBit, Function.update_of_ne (by decide), Function.update_apply, if_pos (by decide)]
  exact (bitAt_setNBit hzero (by decide) _).mpr (by decide)

end RxdOs.Fs.Layout
