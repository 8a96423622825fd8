/- RxdOs/Fs/Dir
   source: fs/fs.c (_find_dir_entry, _add_dir_entry), include/fs.h
   digest: Directory files: their 32-byte entries, looking one up and adding one. -/

import RxdOs.Fs.Name
import RxdOs.Fs.ZoneMap

set_option autoImplicit false
set_option relaxedAutoImplicit false

namespace RxdOs.Fs.Dir

open RxdOs.Base.Assert RxdOs.Base.Int32 RxdOs.Fs.Bitmap RxdOs.Fs.Layout RxdOs.Fs.Zone
  RxdOs.Fs.ZoneMap RxdOs.Fs.Name

/-- `struct dir_entry`; the name field is 24 bytes. -/
structure DirEntry where
  inode : Nat
  recLen : Nat
  nameLen : Nat
  fileType : Nat
  name : CStr

def dirRecLen : Int := 32
def maxDentryLength : Nat := 24
def ftRegFile : Nat := 1

/-- The entry in a buffer. -/
def decodeEntry (buf : Nat → UInt8) : DirEntry where
  inode := wordAt buf 0 4
  recLen := wordAt buf 4 2
  nameLen := (buf 6).toNat
  fileType := (buf 7).toNat
  name := (List.range maxDentryLength).map fun i => buf (8 + i)

/-- The bytes of an entry. -/
def encodeEntry (de : DirEntry) (i : Nat) : UInt8 :=
  if i < 4 then byteOf de.inode i
  else if i < 6 then byteOf de.recLen (i - 4)
  else if i = 6 then byteOf de.nameLen 0
  else if i = 7 then byteOf de.fileType 0
  else charAt de.name (i - 8)

/-- The loop of _find_dir_entry from `pos` on; the second result is *target. -/
def findLoop (disk : Disk) (dir : Inode) (target : DirEntry) : Nat → Int → Kernel (Int × DirEntry)
  | 0, _ => .error (.fault "while (_read(dir, pos, (char *)&de, DIR_REC_LEN) == DIR_REC_LEN)")
  | fuel + 1, pos => do
    let (ret, buf) ← read disk dir pos (fun _ => 0) dirRecLen
    if ret = dirRecLen then
      let de := decodeEntry buf
      if strncmp target.name de.name target.nameLen = 0 then
        pure (pos, { target with inode := de.inode, recLen := de.recLen, fileType := de.fileType })
      else findLoop disk dir target fuel (pos + dirRecLen)
    else pure (pos, target)

/-- No read gets past zone 6, so a directory has 224 entries at most. -/
def dirFuel : Nat := 225

def findDirEntry (disk : Disk) (dir : Inode) (target : DirEntry) : Kernel (Int × DirEntry) := do
  let (pos, target) ← findLoop disk dir target dirFuel 0
  pure (if pos < dir.iSize then pos else -1, target)

/-- The second loop of _add_dir_entry: the first entry without an inode, or the end. -/
def freeLoop (disk : Disk) (dir : Inode) : Nat → Int → Kernel Int
  | 0, _ => .error (.fault "while (_read(dir, pos, (char *)&de, DIR_REC_LEN) == DIR_REC_LEN)")
  | fuel + 1, pos => do
    let (ret, buf) ← read disk dir pos (fun _ => 0) dirRecLen
    if ret = dirRecLen then
      if (decodeEntry buf).inode = 0 then pure pos else freeLoop disk dir fuel (pos + dirRecLen)
    else pure pos

/-- i_nlink is a short. -/
def wrapShort (x : Int) : Int := Int.bmod x 65536

def addDirEntry (disk : Disk) (dir : Inode) (target : DirEntry) (ptrs : Pointers) :
    Kernel (Int × Disk × Inode) := do
  let (found, _) ← findDirEntry disk dir target
  if found ≥ 0 then pure (-1, disk, dir)
  else do
    let pos ← freeLoop disk dir dirFuel 0
    let (_, disk, dir) ← write disk dir pos (encodeEntry target) dirRecLen ptrs
    let dir := { dir with iNlink := wrapShort (dir.iNlink + 1) }
    let disk ← writeInode disk dir ptrs
    pure (0, disk, dir)

/-! ## What adding an entry leaves alone -/

/-- The identity of an inode in the cache: its number and its reference count. -/
def SameNode (inode inode' : Inode) : Prop :=
  inode'.iInum = inode.iInum ∧ inode'.iRefcnt = inode.iRefcnt

theorem grow_same {n : Nat} {cur : Int} {disk disk' : Disk} {inode inode' : Inode}
    (h : grow n cur disk inode = .ok (disk', inode')) : SameButZones inode inode' := by
  induction n generalizing cur disk inode with
  | zero =>
    simp only [grow, pure_eq_ok, Except.ok.injEq, Prod.mk.injEq] at h
    obtain ⟨-, rfl⟩ := h
    exact .refl _
  | succ n ih =>
    simp only [grow, bind_eq_ok] at h
    obtain ⟨⟨b, disk₁⟩, -, inode₁, hset, h⟩ := h
    exact (setZoneBlk_same hset).trans (ih h)

theorem shrink_same {n : Nat} {cur : Int} {disk disk' : Disk} {inode inode' : Inode}
    (h : shrink n cur disk inode = .ok (disk', inode')) : SameButZones inode inode' := by
  induction n generalizing cur disk inode with
  | zero =>
    simp only [shrink, pure_eq_ok, Except.ok.injEq, Prod.mk.injEq] at h
    obtain ⟨-, rfl⟩ := h
    exact .refl _
  | succ n ih =>
    simp only [shrink, bind_eq_ok] at h
    obtain ⟨b, -, inode₁, hset, disk₁, -, h⟩ := h
    exact (setZoneBlk_same hset).trans (ih h)

theorem reserveZone_same {disk disk' : Disk} {inode inode' : Inode} {nzone : Int}
    {truncate : Bool} (h : reserveZone disk inode nzone truncate = .ok (disk', inode')) :
    SameButZones inode inode' := by
  simp only [reserveZone, bind_eq_ok] at h
  obtain ⟨_, -, h⟩ := h
  split_ifs at h
  · exact grow_same h
  · exact shrink_same h
  · simp only [pure_eq_ok, Except.ok.injEq, Prod.mk.injEq] at h
    obtain ⟨-, rfl⟩ := h
    exact .refl _

/-- _write changes the size and the zones of the inode only. -/
theorem write_same {disk disk' : Disk} {inode inode' : Inode} {pos count ret : Int}
    {buf : Nat → UInt8} {ptrs : Pointers}
    (h : write disk inode pos buf count ptrs = .ok (ret, disk', inode')) :
    SameButZones { inode with iSize := inode'.iSize } inode' := by
  simp only [Zone.write, bind_eq_ok, pure_eq_ok, Except.ok.injEq, Prod.mk.injEq] at h
  obtain ⟨_, -, ⟨disk₁, inode₁⟩, hres, _, -, _, -, _, -, -, -, rfl⟩ := h
  have hsame := reserveZone_same hres
  simp only [SameButZones] at hsame ⊢
  rw [← hsame]

theorem addDirEntry_same {disk disk' : Disk} {dir dir' : Inode} {target : DirEntry} {ret : Int}
    {ptrs : Pointers} (h : addDirEntry disk dir target ptrs = .ok (ret, disk', dir')) :
    SameNode dir dir' := by
  simp only [addDirEntry, bind_eq_ok] at h
  obtain ⟨⟨found, de⟩, -, h⟩ := h
  split_ifs at h
  · simp only [pure_eq_ok, Except.ok.injEq, Prod.mk.injEq] at h
    obtain ⟨-, -, rfl⟩ := h
    exact ⟨rfl, rfl⟩
  · simp only [bind_eq_ok, pure_eq_ok, Except.ok.injEq, Prod.mk.injEq] at h
    obtain ⟨pos, -, ⟨_, disk₁, dir₁⟩, hwrite, disk₂, -, -, -, rfl⟩ := h
    have hsame := write_same hwrite
    exact ⟨hsame.iInum, hsame.iRefcnt⟩

end RxdOs.Fs.Dir
