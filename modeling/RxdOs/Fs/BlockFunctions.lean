/- RxdOs/Fs/BlockFunctions
   source: fs/fs.c, fs/bitmap.h
   digest: The functions of the file system that go to the buffer cache, by the blocks they
   visit; on the plain disk they run as the functions on disks do. -/

import RxdOs.Blk.BlockVisits
import RxdOs.Fs.DentryCache
import RxdOs.Fs.FileIo

set_option autoImplicit false
set_option relaxedAutoImplicit false

namespace RxdOs.Fs.BlockFunctions

open RxdOs.Base.Assert RxdOs.Base.Int32 RxdOs.Lib.BlockPrograms RxdOs.Fs.Bitmap RxdOs.Fs.Layout
  RxdOs.Fs.Zone RxdOs.Fs.InodeCache RxdOs.Fs.Name RxdOs.Fs.Dir RxdOs.Fs.FileIo

open RxdOs.Fs.Message (Transfer printed)

/-- A function by its calls of bread, bwrite and brelease; it holds one buffer at a time. -/
abbrev Blocks (α : Type) := Prog Nat Block Halt α

namespace Blocks

/-! ## bitmap.h -/

def bitmapAlloc : Nat → Nat → Nat → Blocks Nat
  | 0, _, _ => .fail (.panic "_bitmap_alloc: map is full")
  | n + 1, start, bit =>
    .visit start
      (fun data => (findFirstZero data sectorSize).map fun tmp =>
        setBit data ((bit + tmp) % sectorBits))
      fun data =>
        match findFirstZero data sectorSize with
        | some tmp => .done (bit + tmp)
        | none => bitmapAlloc n (start + 1) (bit + sectorBits)

def bitmapFree (start stop bit : Nat) : Blocks Unit :=
  if bit ≥ mapBits start stop then .fail (.panic "_bitmap_free: invalid bit")
  else .change (start + bit / sectorBits) fun data => unsetBit data (bit % sectorBits)

def bitmapTest (start stop bit : Nat) : Blocks Bool :=
  if bit ≥ mapBits start stop then .fail (.panic "_bitmap_test: invalid bit")
  else do
    let data ← .look (start + bit / sectorBits)
    pure (testBit data (bit % sectorBits))

def allocInodeNr : Blocks Nat := bitmapAlloc super.sImapCount super.sImapStart 0

def freeInodeNr (inum : Nat) : Blocks Unit :=
  bitmapFree super.sImapStart (super.sImapStart + super.sImapCount) inum

def testInodeNr (inum : Nat) : Blocks Bool :=
  bitmapTest super.sImapStart (super.sImapStart + super.sImapCount) inum

/-! ## fs.c -/

def getBlk : Blocks Nat := do
  let blkNr ← bitmapAlloc super.sZmapCount super.sZmapStart 0
  if blkNr ≠ 0 then do
    .change blkNr fun _ => zeroBlock
    pure blkNr
  else pure blkNr

def putBlk (blkNr : Nat) : Blocks Unit :=
  bitmapFree super.sZmapStart (super.sZmapStart + super.sZmapCount) blkNr

def readInode (inode : Inode) (inum : Nat) : Blocks Inode := do
  .lift (assert (inum ≠ 0) "inum && sb == &super")
  let found ← testInodeNr inum
  if found = true then do
    let data ← .look (inodeBlk inum)
    let dInode := decode data (inodeOff inum) inode.iRefcnt
    .lift (assert (inum = dInode.iInum) "inode->i_inum == d_inode.i_inum")
    pure dInode
  else .fail (.panic "read non-exist inode")

def writeInode (inode : Inode) (ptrs : Pointers) : Blocks Unit := do
  .lift (assert (inode.iInum ≠ 0) "inode && inode->i_inum && inode->i_super == &super")
  let found ← testInodeNr inode.iInum
  if found = true then
    .change (inodeBlk inode.iInum) fun data =>
      store data (inodeOff inode.iInum) sizeofInode (record inode ptrs)
  else .fail (.panic "write non-exist inode")

def grow : Nat → Int → Inode → Blocks Inode
  | 0, _, inode => pure inode
  | n + 1, cur, inode => do
    let blk ← getBlk
    let inode ← .lift (setZoneBlk inode cur blk)
    grow n (cur + 1) inode

def shrink : Nat → Int → Inode → Blocks Inode
  | 0, _, inode => pure inode
  | n + 1, cur, inode => do
    let cur := cur - 1
    let blk ← .lift (getZoneBlk inode cur)
    let inode ← .lift (setZoneBlk inode cur 0)
    putBlk blk
    shrink n cur inode

def reserveZone (inode : Inode) (nzone : Int) (truncate : Bool) : Blocks Inode := do
  .lift (assert (inode.iInum ≥ 1) "inode && inode->i_inum >= 1")
  let curNzone := zonesOf inode.iSize
  if curNzone < nzone then grow (nzone - curNzone).toNat curNzone inode
  else if curNzone > nzone ∧ truncate = true then
    shrink (curNzone - nzone).toNat curNzone inode
  else pure inode

def writeLoop (inode : Inode) (buf : Nat → UInt8) : Nat → Int → Nat → Nat → Blocks Unit
  | 0, _, _, _ => .fail (.fault "while (left_bytes > 0)")
  | fuel + 1, zone, done, left =>
    if left > 0 then do
      let bytes := nextBytes left
      let blk ← .lift (getZoneBlk inode zone)
      .change blk fun data => store data 0 bytes fun i => buf (done + i)
      writeLoop inode buf fuel (zone + 1) (done + bytes) (left - bytes)
    else pure ()

def write (inode : Inode) (pos : Int) (buf : Nat → UInt8) (count : Int) (ptrs : Pointers) :
    Blocks (Int × Inode) := do
  .lift (assert (pos ≥ 0 ∧ count > 0) "pos >= 0 && count > 0")
  let inode ← reserveZone inode (zonesOf (pos + count)) false
  let left := count.toNat
  let zone := pos / 1024
  let off := (pos % 1024).toNat
  let bytes := min left (blockSize - off)
  let blk ← .lift (getZoneBlk inode zone)
  .change blk fun data => store data off bytes buf
  writeLoop inode buf 8 (zone + 1) bytes (left - bytes)
  let inode := { inode with iSize := sizeAfter inode.iSize pos count }
  writeInode inode ptrs
  pure (count, inode)

def readLoop (inode : Inode) : Nat → Int → Nat → Nat → (Nat → UInt8) → Blocks (Nat → UInt8)
  | 0, _, _, _, _ => .fail (.fault "while (left_bytes > 0)")
  | fuel + 1, zone, done, left, buf =>
    if left > 0 then do
      let bytes := nextBytes left
      let blk ← .lift (getZoneBlk inode zone)
      let data ← .look blk
      let buf := fun i => if done ≤ i ∧ i < done + bytes then byteAt data (i - done) else buf i
      readLoop inode fuel (zone + 1) (done + bytes) (left - bytes) buf
    else pure buf

def read (inode : Inode) (pos : Int) (buf : Nat → UInt8) (count : Int) :
    Blocks (Int × (Nat → UInt8)) := do
  .lift (assert (pos ≥ 0 ∧ count ≥ 0) "pos >= 0 && count >= 0")
  if wrap (pos + count) > inode.iSize then pure (-1, buf)
  else do
    let left := count.toNat
    let zone := pos / 1024
    let off := (pos % 1024).toNat
    let bytes := min left (blockSize - off)
    let blk ← .lift (getZoneBlk inode zone)
    let data ← .look blk
    let buf := fun i => if i < bytes then byteAt data (off + i) else buf i
    let buf ← readLoop inode 8 (zone + 1) bytes (left - bytes) buf
    pure (count, buf)

def findLoop (dir : Inode) (target : DirEntry) : Nat → Int → Blocks (Int × DirEntry)
  | 0, _ => .fail (.fault "while (_read(dir, pos, (char *)&de, DIR_REC_LEN) == DIR_REC_LEN)")
  | fuel + 1, pos => do
    let (ret, buf) ← read dir pos (fun _ => 0) dirRecLen
    if ret = dirRecLen then
      let de := decodeEntry buf
      if strncmp target.name de.name target.nameLen = 0 then
        pure (pos, { target with inode := de.inode, recLen := de.recLen, fileType := de.fileType })
      else findLoop dir target fuel (pos + dirRecLen)
    else pure (pos, target)

def findDirEntry (dir : Inode) (target : DirEntry) : Blocks (Int × DirEntry) := do
  let (pos, target) ← findLoop dir target dirFuel 0
  pure (if pos < dir.iSize then pos else -1, target)

def freeLoop (dir : Inode) : Nat → Int → Blocks Int
  | 0, _ => .fail (.fault "while (_read(dir, pos, (char *)&de, DIR_REC_LEN) == DIR_REC_LEN)")
  | fuel + 1, pos => do
    let (ret, buf) ← read dir pos (fun _ => 0) dirRecLen
    if ret = dirRecLen then
      if (decodeEntry buf).inode = 0 then pure pos else freeLoop dir fuel (pos + dirRecLen)
    else pure pos

def addDirEntry (dir : Inode) (target : DirEntry) (ptrs : Pointers) : Blocks (Int × Inode) := do
  let (found, _) ← findDirEntry dir target
  if found ≥ 0 then pure (-1, dir)
  else do
    let pos ← freeLoop dir dirFuel 0
    let (_, dir) ← write dir pos (encodeEntry target) dirRecLen ptrs
    let dir := { dir with iNlink := wrapShort (dir.iNlink + 1) }
    writeInode dir ptrs
    pure (0, dir)

def deleteInode (inode : Inode) : Blocks Inode := do
  let inode ← reserveZone inode 0 true
  freeInodeNr inode.iInum
  pure inode

def writeSuper : Blocks Unit := .change 1 fun data => store data 0 36 superRecord

/-- The inode map and the zone map are cleared before their first bits are set. -/
def mkfs (ptrs : Pointers) : Blocks Unit := do
  writeSuper
  .change super.sImapStart fun _ => setNBit zeroBlock 2
  .change super.sZmapStart fun _ => setNBit zeroBlock super.sDataStart
  writeInode mkfsRoot ptrs

/-- read_super: the block that is copied to the static super block. -/
def readSuper : Blocks Block := .look 1

/-- The loop of dump_inode, which prints the first blocks. -/
def dumpLoop (inode : Inode) : Nat → Nat → Blocks Unit
  | 0, _ => pure ()
  | n + 1, j =>
    if inode.iZone (Fin.ofNat 9 j) ≠ 0 then do
      let _ ← .look (inode.iZone (Fin.ofNat 9 j))
      dumpLoop inode n (j + 1)
    else pure ()

def dumpInode (inode : Inode) : Blocks Unit := dumpLoop inode 3 0

/-- sys_write, between its loop's locals; the disk in them is not used. -/
def sysWriteLoop (usr : Nat → UInt8) (ptrs : Pointers) : Nat → Writing → Blocks Writing
  | 0, _ => .fail (.fault "while (left > 0)")
  | fuel + 1, s =>
    if s.left > 0 then do
      .lift (printed (Transfer.writeText ⟨s.file.fPos, chunk s.left, filled usr s⟩)
        (s.screen s.done))
      let (bytes, inode) ← write s.file.inode s.file.fPos (filled usr s) (chunk s.left) ptrs
      if bytes > 0 then
        sysWriteLoop usr ptrs fuel { s with
          file := ⟨s.file.disk, inode, wrap (s.file.fPos + bytes)⟩
          left := toU32 (s.left - bytes)
          done := s.done + bytes.toNat
          buffer := filled usr s }
      else pure { s with file := ⟨s.file.disk, inode, s.file.fPos⟩, buffer := filled usr s }
    else pure s

/-! ## On the plain disk -/

section Plain

variable {disk : Disk}

theorem run_bitmapAlloc (n start bit : Nat) : (bitmapAlloc n start bit).run plain disk =
    Bitmap.bitmapAlloc disk n start bit := by
  induction n generalizing start bit with
  | zero => rfl
  | succ n ih =>
    rw [bitmapAlloc, Bitmap.bitmapAlloc, Prog.run_visit, putAt]
    cases findFirstZero (disk start) sectorSize with
    | none => exact ih (start + 1) (bit + sectorBits)
    | some tmp => rfl

theorem run_bitmapFree (start stop bit : Nat) : (bitmapFree start stop bit).run plain disk =
    (Bitmap.bitmapFree disk start stop bit).map fun d => ((), d) := by
  rw [bitmapFree, Bitmap.bitmapFree]
  split_ifs <;> rfl

theorem run_bitmapTest (start stop bit : Nat) : (bitmapTest start stop bit).run plain disk =
    (Bitmap.bitmapTest disk start stop bit).map fun t => (t, disk) := by
  rw [bitmapTest, Bitmap.bitmapTest]
  split_ifs <;> rfl

theorem run_getBlk : getBlk.run plain disk = Zone.getBlk disk := by
  rw [getBlk, Zone.getBlk, Prog.run_bind', run_bitmapAlloc]
  refine congrArg _ (funext fun r => ?_)
  obtain ⟨b, d⟩ := r
  dsimp only
  split_ifs with hb
  · rw [Prog.run_bind', Prog.run_change]
    rfl
  · exact Prog.run_pure _

theorem run_putBlk (blkNr : Nat) : (putBlk blkNr).run plain disk =
    (Zone.putBlk disk blkNr).map fun d => ((), d) := run_bitmapFree _ _ _

theorem run_freeInodeNr (inum : Nat) : (freeInodeNr inum).run plain disk =
    (InodeCache.freeInodeNr disk inum).map fun d => ((), d) := run_bitmapFree _ _ _

theorem run_testInodeNr (inum : Nat) : (testInodeNr inum).run plain disk =
    (Layout.testInodeNr disk inum).map fun t => (t, disk) := run_bitmapTest _ _ _

theorem run_readInode (inode : Inode) (inum : Nat) : (readInode inode inum).run plain disk =
    (Layout.readInode disk inode inum).map fun i => (i, disk) := by
  rw [readInode, Layout.readInode, Prog.run_lift_bind, Prog.map_bind]
  refine bind_congr fun _ => ?_
  rw [Prog.run_bind_map (run_testInodeNr inum), Prog.map_bind]
  refine bind_congr fun found => ?_
  split_ifs
  · rw [Prog.run_bind', Prog.run_look, ok_bind, Prog.run_lift_bind, Prog.map_bind]
    exact bind_congr fun _ => rfl
  · rfl

theorem run_writeInode (inode : Inode) (ptrs : Pointers) :
    (writeInode inode ptrs).run plain disk =
      (Layout.writeInode disk inode ptrs).map fun d => ((), d) := by
  rw [writeInode, Layout.writeInode, Prog.run_lift_bind, Prog.map_bind]
  refine bind_congr fun _ => ?_
  rw [Prog.run_bind_map (run_testInodeNr inode.iInum), Prog.map_bind]
  refine bind_congr fun found => ?_
  split_ifs
  · exact Prog.run_change _ _
  · rfl

theorem run_grow (n : Nat) (cur : Int) (inode : Inode) : (grow n cur inode).run plain disk =
    (Zone.grow n cur disk inode).map fun r => (r.2, r.1) := by
  induction n generalizing cur inode disk with
  | zero => rfl
  | succ n ih =>
    rw [grow, Zone.grow, Prog.run_bind', run_getBlk, Prog.map_bind]
    refine bind_congr fun r => ?_
    rw [Prog.run_lift_bind, Prog.map_bind]
    exact bind_congr fun inode => ih (cur + 1) inode

theorem run_shrink (n : Nat) (cur : Int) (inode : Inode) : (shrink n cur inode).run plain disk =
    (Zone.shrink n cur disk inode).map fun r => (r.2, r.1) := by
  induction n generalizing cur inode disk with
  | zero => rfl
  | succ n ih =>
    rw [shrink, Zone.shrink]
    rw [Prog.run_lift_bind, Prog.map_bind]
    refine bind_congr fun blk => ?_
    rw [Prog.run_lift_bind, Prog.map_bind]
    refine bind_congr fun inode => ?_
    rw [Prog.run_bind_map (run_putBlk blk), Prog.map_bind]
    exact bind_congr fun disk => ih (cur - 1) inode

theorem run_reserveZone (inode : Inode) (nzone : Int) (truncate : Bool) :
    (reserveZone inode nzone truncate).run plain disk =
      (Zone.reserveZone disk inode nzone truncate).map fun r => (r.2, r.1) := by
  rw [reserveZone, Zone.reserveZone, Prog.run_lift_bind, Prog.map_bind]
  refine bind_congr fun _ => ?_
  dsimp only
  split_ifs
  · exact run_grow _ _ _
  · exact run_shrink _ _ _
  · rfl

theorem run_writeLoop (inode : Inode) (buf : Nat → UInt8) (fuel : Nat) (zone : Int)
    (done left : Nat) : (writeLoop inode buf fuel zone done left).run plain disk =
      (Zone.writeLoop inode buf fuel zone done left disk).map fun d => ((), d) := by
  induction fuel generalizing zone done left disk with
  | zero => rfl
  | succ fuel ih =>
    rw [writeLoop, Zone.writeLoop]
    split_ifs
    · rw [Prog.run_lift_bind, Prog.map_bind]
      refine bind_congr fun blk => ?_
      rw [Prog.run_bind', Prog.run_change, ok_bind]
      exact ih _ _ _
    · rfl

theorem run_write (inode : Inode) (pos : Int) (buf : Nat → UInt8) (count : Int)
    (ptrs : Pointers) : (write inode pos buf count ptrs).run plain disk =
      (Zone.write disk inode pos buf count ptrs).map fun r => ((r.1, r.2.2), r.2.1) := by
  rw [write, Zone.write, Prog.run_lift_bind, Prog.map_bind]
  refine bind_congr fun _ => ?_
  rw [Prog.run_bind_map (run_reserveZone _ _ _), Prog.map_bind]
  refine bind_congr fun r => ?_
  dsimp only
  rw [Prog.run_lift_bind, Prog.map_bind]
  refine bind_congr fun blk => ?_
  rw [Prog.run_bind', Prog.run_change, ok_bind, Prog.run_bind_map (run_writeLoop _ _ _ _ _ _),
    Prog.map_bind]
  refine bind_congr fun disk => ?_
  rw [Prog.run_bind_map (run_writeInode _ _), Prog.map_bind]
  exact bind_congr fun _ => rfl

theorem run_readLoop (inode : Inode) (fuel : Nat) (zone : Int) (done left : Nat)
    (buf : Nat → UInt8) : (readLoop inode fuel zone done left buf).run plain disk =
      (Zone.readLoop disk inode fuel zone done left buf).map fun b => (b, disk) := by
  induction fuel generalizing zone done left buf with
  | zero => rfl
  | succ fuel ih =>
    rw [readLoop, Zone.readLoop]
    split_ifs
    · rw [Prog.run_lift_bind, Prog.map_bind]
      refine bind_congr fun blk => ?_
      rw [Prog.run_bind', Prog.run_look, ok_bind]
      exact ih _ _ _ _
    · rfl

theorem run_read (inode : Inode) (pos : Int) (buf : Nat → UInt8) (count : Int) :
    (read inode pos buf count).run plain disk =
      (Zone.read disk inode pos buf count).map fun r => (r, disk) := by
  rw [read, Zone.read, Prog.run_lift_bind, Prog.map_bind]
  refine bind_congr fun _ => ?_
  split_ifs
  · rfl
  · dsimp only
    rw [Prog.run_lift_bind, Prog.map_bind]
    refine bind_congr fun blk => ?_
    rw [Prog.run_bind', Prog.run_look, ok_bind, Prog.run_bind_map (run_readLoop _ _ _ _ _ _),
      Prog.map_bind]
    exact bind_congr fun _ => rfl

theorem run_findLoop (dir : Inode) (target : DirEntry) (fuel : Nat) (pos : Int) :
    (findLoop dir target fuel pos).run plain disk =
      (Dir.findLoop disk dir target fuel pos).map fun r => (r, disk) := by
  induction fuel generalizing pos with
  | zero => rfl
  | succ fuel ih =>
    rw [findLoop, Dir.findLoop, Prog.run_bind_map (run_read _ _ _ _), Prog.map_bind]
    refine bind_congr fun r => ?_
    dsimp only
    split_ifs
    · rfl
    · exact ih _
    · rfl

theorem run_findDirEntry (dir : Inode) (target : DirEntry) :
    (findDirEntry dir target).run plain disk =
      (Dir.findDirEntry disk dir target).map fun r => (r, disk) := by
  rw [findDirEntry, Dir.findDirEntry, Prog.run_bind_map (run_findLoop _ _ _ _), Prog.map_bind]
  exact bind_congr fun _ => rfl

theorem run_freeLoop (dir : Inode) (fuel : Nat) (pos : Int) :
    (freeLoop dir fuel pos).run plain disk =
      (Dir.freeLoop disk dir fuel pos).map fun p => (p, disk) := by
  induction fuel generalizing pos with
  | zero => rfl
  | succ fuel ih =>
    rw [freeLoop, Dir.freeLoop, Prog.run_bind_map (run_read _ _ _ _), Prog.map_bind]
    refine bind_congr fun r => ?_
    dsimp only
    split_ifs
    · rfl
    · exact ih _
    · rfl

theorem run_addDirEntry (dir : Inode) (target : DirEntry) (ptrs : Pointers) :
    (addDirEntry dir target ptrs).run plain disk =
      (Dir.addDirEntry disk dir target ptrs).map fun r => ((r.1, r.2.2), r.2.1) := by
  rw [addDirEntry, Dir.addDirEntry, Prog.run_bind_map (run_findDirEntry _ _), Prog.map_bind]
  refine bind_congr fun r => ?_
  dsimp only
  split_ifs
  · rfl
  · rw [Prog.run_bind_map (run_freeLoop _ _ _), Prog.map_bind]
    refine bind_congr fun pos => ?_
    rw [Prog.run_bind_map (run_write _ _ _ _ _), Prog.map_bind]
    refine bind_congr fun r => ?_
    rw [Prog.run_bind_map (run_writeInode _ _), Prog.map_bind]
    exact bind_congr fun _ => rfl

theorem run_deleteInode (inode : Inode) : (deleteInode inode).run plain disk =
    (InodeCache.deleteInode disk inode).map fun r => (r.2, r.1) := by
  rw [deleteInode, InodeCache.deleteInode, Prog.run_bind_map (run_reserveZone _ _ _),
    Prog.map_bind]
  refine bind_congr fun r => ?_
  rw [Prog.run_bind_map (run_freeInodeNr _), Prog.map_bind]
  exact bind_congr fun _ => rfl

theorem run_mkfs (ptrs : Pointers) : (mkfs ptrs).run plain disk =
    (Layout.mkfs disk ptrs).map fun d => ((), d) := by
  rw [mkfs, Layout.mkfs, Prog.run_bind', writeSuper, Prog.run_change, ok_bind, Prog.run_bind',
    Prog.run_change, ok_bind, Prog.run_bind', Prog.run_change, ok_bind]
  exact run_writeInode _ _

theorem run_dumpLoop (inode : Inode) (n j : Nat) :
    (dumpLoop inode n j).run plain disk = .ok ((), disk) := by
  induction n generalizing j with
  | zero => rfl
  | succ n ih =>
    rw [dumpLoop]
    split_ifs
    · rw [Prog.run_bind', Prog.run_look, ok_bind]
      exact ih (j + 1)
    · rfl

end Plain

end Blocks

end RxdOs.Fs.BlockFunctions
