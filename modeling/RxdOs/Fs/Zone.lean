/- RxdOs/Fs/Zone
   source: fs/fs.c (_get_blk to _write)
   digest: The zones of an inode: block allocation, growth, truncation, reading and writing. -/

import RxdOs.Fs.Layout

set_option autoImplicit false
set_option relaxedAutoImplicit false

namespace RxdOs.Fs.Zone

open RxdOs.Base.Assert RxdOs.Base.Int32 RxdOs.Fs.Bitmap RxdOs.Fs.Layout

/-- `(n + BLOCK_SIZE - 1) / BLOCK_SIZE` on ints. -/
def zonesOf (n : Int) : Int := (wrap (n + 1023)).tdiv 1024

def getBlk (disk : Disk) : Kernel (Nat × Disk) := do
  let (blkNr, disk) ← bitmapAlloc disk super.sZmapCount super.sZmapStart 0
  -- "clear block content"
  if blkNr ≠ 0 then pure (blkNr, Function.update disk blkNr zeroBlock)
  else pure (blkNr, disk)

def putBlk (disk : Disk) (blkNr : Nat) : Kernel Disk :=
  bitmapFree disk super.sZmapStart (super.sZmapStart + super.sZmapCount) blkNr

/-- The guards shared by _set_zone_blk and _get_zone_blk. -/
def zoneRange (zoneNr : Int) : Prop := zoneNr ≥ 0 ∧ zoneNr < 7 + 256 + 256 * 256

instance (zoneNr : Int) : Decidable (zoneRange zoneNr) := inferInstanceAs (Decidable (_ ∧ _))

def setZoneBlk (inode : Inode) (zoneNr : Int) (blkNr : Nat) : Kernel Inode := do
  assert (zoneRange zoneNr) "zone_nr >= 0 && zone_nr < 7 + 256 + 256 * 256"
  if zoneNr > 6 then .error (.panic "Indirect inode zone is not support now")
  else pure { inode with iZone := Function.update inode.iZone (Fin.ofNat 9 zoneNr.toNat) blkNr }

def getZoneBlk (inode : Inode) (zoneNr : Int) : Kernel Nat := do
  assert (zoneRange zoneNr) "zone_nr >= 0 && zone_nr < 7 + 256 + 256 * 256"
  if zoneNr > zonesOf inode.iSize then
    .error (.panic "_get_zone_blk(): invalid zone number, too big.")
  else if zoneNr > 6 then .error (.panic "Indirect inode zone is not support now")
  else pure (inode.iZone (Fin.ofNat 9 zoneNr.toNat))

/-- The growing loop of _reserve_zone, which ends when `cur` has reached nzone: `n` rounds. -/
def grow : Nat → Int → Disk → Inode → Kernel (Disk × Inode)
  | 0, _, disk, inode => pure (disk, inode)
  | n + 1, cur, disk, inode => do
    let (blk, disk) ← getBlk disk
    let inode ← setZoneBlk inode cur blk
    grow n (cur + 1) disk inode

/-- The truncating loop, `n` rounds down from `cur`. -/
def shrink : Nat → Int → Disk → Inode → Kernel (Disk × Inode)
  | 0, _, disk, inode => pure (disk, inode)
  | n + 1, cur, disk, inode => do
    let cur := cur - 1
    let blk ← getZoneBlk inode cur
    let inode ← setZoneBlk inode cur 0
    let disk ← putBlk disk blk
    shrink n cur disk inode

def reserveZone (disk : Disk) (inode : Inode) (nzone : Int) (truncate : Bool) :
    Kernel (Disk × Inode) := do
  assert (inode.iInum ≥ 1) "inode && inode->i_inum >= 1"
  let curNzone := zonesOf inode.iSize
  if curNzone < nzone then grow (nzone - curNzone).toNat curNzone disk inode
  else if curNzone > nzone ∧ truncate = true then
    shrink (curNzone - nzone).toNat curNzone disk inode
  else pure (disk, inode)

/-- `bytes = (left_bytes > BLOCK_SIZE) ? left_bytes % BLOCK_SIZE : left_bytes` -/
def nextBytes (left : Nat) : Nat := if left > blockSize then left % blockSize else left

/-- The rest of _write after its first block: no round gets past zone 6. -/
def writeLoop (inode : Inode) (buf : Nat → UInt8) : Nat → Int → Nat → Nat → Disk → Kernel Disk
  | 0, _, _, _, _ => .error (.fault "while (left_bytes > 0)")
  | fuel + 1, zone, done, left, disk =>
    if left > 0 then do
      let bytes := nextBytes left
      let blk ← getZoneBlk inode zone
      let disk := Function.update disk blk (store (disk blk) 0 bytes fun i => buf (done + i))
      writeLoop inode buf fuel (zone + 1) (done + bytes) (left - bytes) disk
    else pure disk

/-- "update inode size if necessary": the comparison is one of unsigned ints. -/
def sizeAfter (size pos count : Int) : Int :=
  if toU32 size < toU32 (pos + count) then wrap (pos + count) else size

/-- _write of `count` bytes of `buf`; `ptrs` is what the inode's pointer fields hold. -/
def write (disk : Disk) (inode : Inode) (pos : Int) (buf : Nat → UInt8) (count : Int)
    (ptrs : Pointers) : Kernel (Int × Disk × Inode) := do
  assert (pos ≥ 0 ∧ count > 0) "pos >= 0 && count > 0"
  let (disk, inode) ← reserveZone disk inode (zonesOf (pos + count)) false
  let left := count.toNat
  let zone := pos / 1024
  let off := (pos % 1024).toNat
  let bytes := min left (blockSize - off)
  let blk ← getZoneBlk inode zone
  let disk := Function.update disk blk (store (disk blk) off bytes buf)
  let disk ← writeLoop inode buf 8 (zone + 1) bytes (left - bytes) disk
  let inode := { inode with iSize := sizeAfter inode.iSize pos count }
  let disk ← writeInode disk inode ptrs
  pure (count, disk, inode)

/-- The rest of _read after its first block, into `buf`. -/
def readLoop (disk : Disk) (inode : Inode) : Nat → Int → Nat → Nat → (Nat → UInt8) →
    Kernel (Nat → UInt8)
  | 0, _, _, _, _ => .error (.fault "while (left_bytes > 0)")
  | fuel + 1, zone, done, left, buf =>
    if left > 0 then do
      let bytes := nextBytes left
      let blk ← getZoneBlk inode zone
      let buf := fun i => if done ≤ i ∧ i < done + bytes then byteAt (disk blk) (i - done) else buf i
      readLoop disk inode fuel (zone + 1) (done + bytes) (left - bytes) buf
    else pure buf

/-- _read of `count` bytes into `buf`. -/
def read (disk : Disk) (inode : Inode) (pos : Int) (buf : Nat → UInt8) (count : Int) :
    Kernel (Int × (Nat → UInt8)) := do
  assert (pos ≥ 0 ∧ count ≥ 0) "pos >= 0 && count >= 0"
  -- "read can't exceed file end"
  if wrap (pos + count) > inode.iSize then pure (-1, buf)
  else
    let left := count.toNat
    let zone := pos / 1024
    let off := (pos % 1024).toNat
    let bytes := min left (blockSize - off)
    let blk ← getZoneBlk inode zone
    let buf := fun i => if i < bytes then byteAt (disk blk) (off + i) else buf i
    let buf ← readLoop disk inode 8 (zone + 1) bytes (left - bytes) buf
    pure (count, buf)

/-! ## The zone helpers -/

theorem setZoneBlk_ok {inode inode' : Inode} {zoneNr : Int} {blkNr : Nat}
    (h : setZoneBlk inode zoneNr blkNr = .ok inode') : 0 ≤ zoneNr ∧ zoneNr ≤ 6 ∧
      inode' = { inode with
        iZone := Function.update inode.iZone (Fin.ofNat 9 zoneNr.toNat) blkNr } := by
  simp only [setZoneBlk, bind_eq_ok, assert_eq_ok, ite_error_eq_ok, pure_eq_ok,
    Except.ok.injEq] at h
  obtain ⟨_, hr, hle, rfl⟩ := h
  exact ⟨hr.1, by omega, rfl⟩

theorem getZoneBlk_ok {inode : Inode} {zoneNr : Int} {blkNr : Nat}
    (h : getZoneBlk inode zoneNr = .ok blkNr) : 0 ≤ zoneNr ∧ zoneNr ≤ 6 ∧
      zoneNr ≤ zonesOf inode.iSize ∧ blkNr = inode.iZone (Fin.ofNat 9 zoneNr.toNat) := by
  simp only [getZoneBlk, bind_eq_ok, assert_eq_ok, ite_error_eq_ok, pure_eq_ok,
    Except.ok.injEq] at h
  obtain ⟨_, hr, hsize, hle, rfl⟩ := h
  exact ⟨hr.1, by omega, by omega, rfl⟩

/-- A block that _get_blk returns was free; it is taken and zeroed. -/
theorem getBlk_ok {disk disk' : Disk} {b : Nat} (h : getBlk disk = .ok (b, disk')) :
    b < sectorBits ∧ ¬ZoneBit disk b ∧ (∀ j < b, ZoneBit disk j) ∧
      disk' = if b ≠ 0 then Function.update (Function.update disk super.sZmapStart
          (setBit (disk super.sZmapStart) b)) b zeroBlock
        else Function.update disk super.sZmapStart (setBit (disk super.sZmapStart) b) := by
  simp only [getBlk, bind_eq_ok] at h
  obtain ⟨⟨k, disk₁⟩, halloc, h⟩ := h
  obtain ⟨k, hk, rfl, hzero, hones, rfl⟩ := bitmapAlloc_ok (by decide) halloc
  have hk' : k < sectorBits := by simpa [super] using hk
  rw [Nat.div_eq_of_lt hk', Nat.mod_eq_of_lt hk', Nat.zero_add, Nat.add_zero] at h
  have hres : k = b ∧ (if k ≠ 0 then Function.update (Function.update disk super.sZmapStart
      (setBit (disk super.sZmapStart) k)) k zeroBlock
      else Function.update disk super.sZmapStart (setBit (disk super.sZmapStart) k)) = disk' := by
    split_ifs at h ⊢ <;> simpa using h
  obtain ⟨rfl, rfl⟩ := hres
  exact ⟨hk', hzero, hones, rfl⟩

theorem putBlk_ok {disk disk' : Disk} {b : Nat} (h : putBlk disk b = .ok disk') :
    b < sectorBits ∧ disk' = Function.update disk super.sZmapStart
      (unsetBit (disk super.sZmapStart) b) := by
  obtain ⟨hlt, rfl⟩ := bitmapFree_ok h
  have hb : b < sectorBits := by simpa [super] using hlt
  rw [Nat.div_eq_of_lt hb, Nat.mod_eq_of_lt hb, Nat.add_zero]
  exact ⟨hb, rfl⟩

end RxdOs.Fs.Zone
