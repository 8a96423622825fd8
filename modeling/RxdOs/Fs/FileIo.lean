/- RxdOs/Fs/FileIo
   source: fs/fs.c (sys_read, sys_write, sys_lseek)
   digest: Positions, reads and writes of one open descriptor: exactly the calls that are
   answered, along every run of such calls. -/

import RxdOs.Lib.Execution
import RxdOs.Fs.FileWrite
import RxdOs.Fs.Message

set_option autoImplicit false
set_option relaxedAutoImplicit false

namespace RxdOs.Fs.FileIo

open RxdOs.Base.Assert RxdOs.Base.Int32 RxdOs.Lib.Execution RxdOs.Fs.Bitmap RxdOs.Fs.Layout
  RxdOs.Fs.Zone RxdOs.Fs.ZoneMap RxdOs.Fs.FileBytes RxdOs.Fs.FileRead RxdOs.Fs.FileWrite
  RxdOs.Fs.Message

open RxdOs.Libk.Printk (Screen)
open RxdOs.Libk.Str (Terminated)

/-- The file behind a descriptor: the inode of its dentry and the position in struct file. -/
structure OpenFile where
  disk : Disk
  inode : Inode
  fPos : Int

def seekSet : Int := 1
def seekCur : Int := 2
def seekEnd : Int := 3

def sysLseek (s : OpenFile) (offset whence : Int) : Int × OpenFile :=
  if whence = seekSet then (offset, { s with fPos := offset })
  else if whence = seekCur then
    let pos := wrap (s.fPos + offset)
    (pos, { s with fPos := pos })
  else if whence = seekEnd then
    let pos := wrap (s.inode.iSize + offset)
    (pos, { s with fPos := pos })
  else (-1, s)

def pageSize : Nat := 4096

/-- `bytes = (left > PAGE_SIZE) ? PAGE_SIZE : (int)left` -/
def chunk (left : Int) : Int := if left > pageSize then pageSize else left

/-- The locals of sys_read: `done` bytes of the user's range are behind usrbuf. -/
structure Reading where
  fPos : Int
  count : Int
  left : Int
  done : Nat
  buffer : Nat → UInt8
  usr : Nat → UInt8
  screen : Nat → Screen

/-- The loop of sys_read; count and left are unsigned ints. -/
def sysReadLoop (disk : Disk) (inode : Inode) : Nat → Reading → Kernel Reading
  | 0, _ => .error (.fault "while (left > 0)")
  | fuel + 1, s =>
    if s.left > 0 then do
      let (bytes, buffer) ← Zone.read disk inode s.fPos s.buffer (chunk s.left)
      if bytes > 0 then do
        printed (Transfer.readText ⟨s.fPos, bytes, buffer⟩) (s.screen s.done)
        sysReadLoop disk inode fuel { s with
          buffer := buffer
          usr := fun i =>
            if s.done ≤ i ∧ (i : Int) < s.done + bytes then buffer (i - s.done) else s.usr i
          left := toU32 (s.left - bytes)
          done := s.done + bytes.toNat
          fPos := wrap (s.fPos + bytes) }
      else
        -- the line printed here is always shown
        sysReadLoop disk inode fuel { s with
          buffer := buffer
          count := toU32 (s.count - (s.left - (inode.iSize - s.fPos)))
          left := toU32 (inode.iSize - s.fPos) }
    else pure s

/-- sys_read into `usr`. -/
def sysRead (fuel : Nat) (s : OpenFile) (count : Int) (found : Found) (usr : Nat → UInt8) :
    Kernel (Int × (Nat → UInt8) × OpenFile) :=
  withPage found do
    let t ← sysReadLoop s.disk s.inode fuel
      ⟨s.fPos, count, count, 0, found.page, usr, found.screen⟩
    pure (wrap (t.count - t.left), t.usr, { s with fPos := t.fPos })

/-- The locals of sys_write. -/
structure Writing where
  file : OpenFile
  left : Int
  done : Nat
  buffer : Nat → UInt8
  screen : Nat → Screen

/-- The page after `memcpy_from_user(buffer, usrbuf, bytes)`. -/
def filled (usr : Nat → UInt8) (s : Writing) (i : Nat) : UInt8 :=
  if (i : Int) < chunk s.left then usr (s.done + i) else s.buffer i

/-- The loop of sys_write, out of `usr`. -/
def sysWriteLoop (usr : Nat → UInt8) (ptrs : Pointers) : Nat → Writing → Kernel Writing
  | 0, _ => .error (.fault "while (left > 0)")
  | fuel + 1, s =>
    if s.left > 0 then do
      printed (Transfer.writeText ⟨s.file.fPos, chunk s.left, filled usr s⟩) (s.screen s.done)
      let (bytes, disk, inode) ←
        Zone.write s.file.disk s.file.inode s.file.fPos (filled usr s) (chunk s.left) ptrs
      if bytes > 0 then
        sysWriteLoop usr ptrs fuel { s with
          file := ⟨disk, inode, wrap (s.file.fPos + bytes)⟩
          left := toU32 (s.left - bytes)
          done := s.done + bytes.toNat
          buffer := filled usr s }
      else pure { s with file := ⟨disk, inode, s.file.fPos⟩, buffer := filled usr s }
    else pure s

def sysWrite (fuel : Nat) (s : OpenFile) (count : Int) (found : Found) (usr : Nat → UInt8)
    (ptrs : Pointers) : Kernel (Int × OpenFile) :=
  withPage found do
    let t ← sysWriteLoop usr ptrs fuel ⟨s, count, 0, found.page, found.screen⟩
    pure (wrap (count - t.left), t.file)

/-- A call with the arguments a user can give, and what it finds. -/
inductive Call
  | lseek (offset whence : BitVec 32)
  | read (count : BitVec 32) (found : Found) (usr : Nat → UInt8)
  | write (count : BitVec 32) (found : Found) (usr : Nat → UInt8) (ptrs : Pointers)

/-- The call, for at most `fuel` rounds of its loop: what it returns and leaves. -/
def syscall (fuel : Nat) (s : OpenFile) : Call → Kernel (Int × OpenFile)
  | .lseek offset whence => pure (sysLseek s offset.toInt whence.toInt)
  | .read count found usr => do
    let (ret, _, s) ← sysRead fuel s count.toNat found usr
    pure (ret, s)
  | .write count found usr ptrs => sysWrite fuel s count.toNat found usr ptrs

/-- A call that returns. -/
def Step (s : OpenFile) (a : Call) (s' : OpenFile) : Prop :=
  ∃ fuel ret, syscall fuel s a = .ok (ret, s')

/-! ## What a call should do -/

/-- The position an lseek asks for. -/
def target (s : OpenFile) (offset whence : Int) : Option Int :=
  if whence = seekSet then some offset
  else if whence = seekCur then some (s.fPos + offset)
  else if whence = seekEnd then some (s.inode.iSize + offset)
  else none

/-- A position an off_t holds. -/
def Position (x : Int) : Prop := 0 ≤ x ∧ x < 2 ^ 31

/-- An lseek goes to its target or is refused; a read moves past what it returns; the size and
the zones after a write are those of the bytes it reports, the others stay. -/
def Answer (s : OpenFile) (a : Call) (ret : Int) (s' : OpenFile) : Prop :=
  match a with
  | .lseek offset whence => s'.disk = s.disk ∧ s'.inode = s.inode ∧
    ((∃ x, target s offset.toInt whence.toInt = some x ∧ Position x ∧ ret = x ∧ s'.fPos = x) ∨
      (∀ x, target s offset.toInt whence.toInt = some x → ¬Position x) ∧
        ret = -1 ∧ s'.fPos = s.fPos)
  | .read count _ _ => s'.disk = s.disk ∧ s'.inode = s.inode ∧
    (ret = -1 ∧ s'.fPos = s.fPos ∨ 0 ≤ ret ∧ ret ≤ count.toNat ∧ s'.fPos = s.fPos + ret)
  | .write count _ _ _ =>
    ret = -1 ∧ s'.inode.iSize = s.inode.iSize ∧ s'.inode.iZone = s.inode.iZone ∧
      s'.fPos = s.fPos ∨
    0 ≤ ret ∧ ret ≤ count.toNat ∧ s'.fPos = s.fPos + ret ∧
      s'.inode.iSize = (if ret = 0 then s.inode.iSize else max s.inode.iSize (s.fPos + ret)) ∧
      ∀ k : Fin 9, (k : Int) < zonesOf s.inode.iSize ∨ zonesOf s'.inode.iSize ≤ (k : Int) →
        s'.inode.iZone k = s.inode.iZone k

/-- The call returns, with such an answer. -/
def Handled (s : OpenFile) (a : Call) : Prop :=
  ∃ fuel ret s', syscall fuel s a = .ok (ret, s') ∧ Answer s a ret s'

/-- The bytes a read of `count` has left before the end of the file. -/
def available (s : OpenFile) (count : Nat) : Nat :=
  min count (s.inode.iSize.toNat - s.fPos.toNat)

/-- The page after a read of `count` bytes: behind them it holds what it held before. -/
def pageRead (disk : Disk) (inode : Inode) (pos count : Nat) (page : Nat → UInt8) (i : Nat) : UInt8 :=
  if i < count then gathered disk inode pos count i else page i

/-- The line about the page of a read, if it gets a byte, is shown. -/
def ReadShown (s : OpenFile) (count : Nat) (found : Found) : Prop :=
  0 < available s count → Shown (Transfer.readText ⟨s.fPos, available s count,
    pageRead s.disk s.inode s.fPos.toNat (available s count) found.page⟩) (found.screen 0)

/-- The line about the page of a write is shown. -/
def WriteShown (s : OpenFile) (count : Nat) (found : Found) (usr : Nat → UInt8) : Prop :=
  Shown (Transfer.writeText ⟨s.fPos, count, fun i => if i < count then usr i else found.page i⟩)
    (found.screen 0)

/-- A read of nothing, or one that starts inside the file, with less than two blocks after its
first and a line that is shown. -/
def ReadFitting (s : OpenFile) (count : Nat) (found : Found) : Prop :=
  count = 0 ∨ s.fPos ≤ s.inode.iSize ∧ restBytes s.fPos.toNat (available s count) < 2048 ∧
    ReadShown s count found

/-- A write of nothing, or one that fits the zones and the disk, with less than two blocks after
its first and a line that is shown. -/
def WriteFitting (s : OpenFile) (count : Nat) (found : Found) (usr : Nat → UInt8) : Prop :=
  count = 0 ∨ s.fPos + count ≤ maxSize ∧
    Room s.disk (zonesOf (s.fPos + count) - zonesOf s.inode.iSize).toNat ∧
    WriteFits s.inode s.fPos.toNat count ∧ WriteShown s count found usr

/-- The calls that are answered: an lseek to a position or with an unknown whence, a read or a
write that fits and finds a page. -/
def Fitting (s : OpenFile) : Call → Prop
  | .lseek offset whence => ∀ x, target s offset.toInt whence.toInt = some x → Position x
  | .read count found _ => found.Paged ∧ ReadFitting s count.toNat found
  | .write count found usr _ => found.Paged ∧ WriteFitting s count.toNat found usr

/-- A file that holds no hole, open at a position. -/
structure Sound (s : OpenFile) : Prop where
  reserved : Reserved s.disk
  owned : Owned s.disk s.inode
  live : Live s.disk s.inode
  position : Position s.fPos

variable {s s' : OpenFile}

/-! ## Rounds -/

theorem sysReadLoop_mono {disk : Disk} {inode : Inode} {fuel : Nat} {t t' : Reading}
    (h : sysReadLoop disk inode fuel t = .ok t') :
    sysReadLoop disk inode (fuel + 1) t = .ok t' := by
  induction fuel generalizing t with
  | zero => cases h
  | succ fuel ih =>
    rw [sysReadLoop] at h ⊢
    split_ifs at h ⊢ with hleft
    · simp only [bind_eq_ok] at h ⊢
      obtain ⟨r, hread, hround⟩ := h
      refine ⟨r, hread, ?_⟩
      split_ifs at hround ⊢ with hbytes
      · obtain ⟨u, hprint, hround⟩ := bind_eq_ok.mp hround
        exact bind_eq_ok.mpr ⟨u, hprint, ih hround⟩
      · exact ih hround
    · exact h

theorem sysWriteLoop_mono {usr : Nat → UInt8} {ptrs : Pointers} {fuel : Nat} {t t' : Writing}
    (h : sysWriteLoop usr ptrs fuel t = .ok t') :
    sysWriteLoop usr ptrs (fuel + 1) t = .ok t' := by
  induction fuel generalizing t with
  | zero => cases h
  | succ fuel ih =>
    rw [sysWriteLoop] at h ⊢
    split_ifs at h ⊢ with hleft
    · simp only [bind_eq_ok] at h ⊢
      obtain ⟨u, hprint, r, hwrite, hround⟩ := h
      refine ⟨u, hprint, r, hwrite, ?_⟩
      split_ifs at hround ⊢ with hbytes
      · exact ih hround
      · exact hround
    · exact h

/-- More rounds do not change what a call returns. -/
theorem syscall_mono {fuel : Nat} {a : Call} {r : Int × OpenFile} (h : syscall fuel s a = .ok r)
    (more : Nat) : syscall (fuel + more) s a = .ok r := by
  induction more with
  | zero => exact h
  | succ more ih =>
    cases a with
    | lseek offset whence => exact ih
    | read count found usr =>
      simp only [syscall, sysRead, withPage_eq_ok, bind_eq_ok] at ih ⊢
      obtain ⟨x, ⟨hpaged, t, hloop, hx⟩, hr⟩ := ih
      exact ⟨x, ⟨hpaged, t, sysReadLoop_mono hloop, hx⟩, hr⟩
    | write count found usr ptrs =>
      simp only [syscall, sysWrite, withPage_eq_ok, bind_eq_ok] at ih ⊢
      obtain ⟨hpaged, t, hloop, hr⟩ := ih
      exact ⟨hpaged, t, sysWriteLoop_mono hloop, hr⟩

theorem syscall_det {n m : Nat} {a : Call} {r r' : Int × OpenFile} (h : syscall n s a = .ok r)
    (h' : syscall m s a = .ok r') : r = r' := by
  have hn := syscall_mono h m
  rw [Nat.add_comm, syscall_mono h' n] at hn
  exact (Except.ok.inj hn).symm

/-! ## Reads -/

theorem chunk_nat (n : Nat) : chunk n = ((min n 4096 : Nat) : Int) := by
  rw [chunk, pageSize]
  split_ifs with hbig
  · omega
  · omega

/-- A round that gets its bytes. -/
theorem sysReadLoop_got {disk : Disk} {inode : Inode} {fuel : Nat} {t : Reading} {bytes : Int}
    {buffer : Nat → UInt8} (hleft : 0 < t.left)
    (hread : Zone.read disk inode t.fPos t.buffer (chunk t.left) = .ok (bytes, buffer))
    (hbytes : 0 < bytes)
    (hshown : Shown (Transfer.readText ⟨t.fPos, bytes, buffer⟩) (t.screen t.done)) :
    sysReadLoop disk inode (fuel + 1) t =
      sysReadLoop disk inode fuel { t with
        buffer := buffer
        usr := fun i =>
          if t.done ≤ i ∧ (i : Int) < t.done + bytes then buffer (i - t.done) else t.usr i
        left := toU32 (t.left - bytes)
        done := t.done + bytes.toNat
        fPos := wrap (t.fPos + bytes) } := by
  rw [sysReadLoop, if_pos hleft, hread, ok_bind]
  dsimp only
  rw [if_pos hbytes, printed_of_shown hshown, ok_bind]

/-- A round that got its bytes and came back has shown them. -/
theorem sysReadLoop_shown {disk : Disk} {inode : Inode} {fuel : Nat} {t t' : Reading} {bytes : Int}
    {buffer : Nat → UInt8} (hleft : 0 < t.left)
    (hread : Zone.read disk inode t.fPos t.buffer (chunk t.left) = .ok (bytes, buffer))
    (hbytes : 0 < bytes) (hloop : sysReadLoop disk inode (fuel + 1) t = .ok t') :
    Shown (Transfer.readText ⟨t.fPos, bytes, buffer⟩) (t.screen t.done) := by
  rw [sysReadLoop, if_pos hleft, hread, ok_bind] at hloop
  dsimp only at hloop
  rw [if_pos hbytes, bind_eq_ok] at hloop
  obtain ⟨u, hprint, -⟩ := hloop
  exact printed_eq_ok.mp hprint

/-- A round past the end: what is left is cut down to the rest of the file. -/
theorem sysReadLoop_cut {disk : Disk} {inode : Inode} {fuel : Nat} {t : Reading}
    {buffer : Nat → UInt8} (hleft : 0 < t.left)
    (hread : Zone.read disk inode t.fPos t.buffer (chunk t.left) = .ok (-1, buffer)) :
    sysReadLoop disk inode (fuel + 1) t =
      sysReadLoop disk inode fuel { t with
        buffer := buffer
        count := toU32 (t.count - (t.left - (inode.iSize - t.fPos)))
        left := toU32 (inode.iSize - t.fPos) } := by
  rw [sysReadLoop, if_pos hleft, hread, ok_bind]
  exact if_neg (by decide)

theorem sysReadLoop_end {disk : Disk} {inode : Inode} {fuel : Nat} {t : Reading}
    (hleft : t.left = 0) : sysReadLoop disk inode (fuel + 1) t = .ok t := by
  rw [sysReadLoop, if_neg (by omega)]
  rfl

/-- From a position past the end no number of rounds comes to an end. -/
theorem sysReadLoop_past {disk : Disk} {inode : Inode} (h0 : 0 ≤ inode.iSize) {fuel pos : Nat}
    {t t' : Reading} (hpos : t.fPos = pos) (hlt : pos < 2 ^ 31) (hpast : inode.iSize < pos)
    (hleft : 0 < t.left) : sysReadLoop disk inode fuel t ≠ .ok t' := by
  induction fuel generalizing t with
  | zero => nofun
  | succ fuel ih =>
    intro h
    obtain ⟨n, hn⟩ := Int.eq_ofNat_of_zero_le hleft.le
    have hchunk := chunk_nat n
    rw [← hn] at hchunk
    by_cases hsum : pos + min n 4096 < 2 ^ 31
    · have hread := @read_past disk inode pos (min n 4096) t.buffer (by push_cast; omega) hsum
      rw [← hpos, ← hchunk] at hread
      rw [sysReadLoop_cut hleft hread] at h
      refine ih ?_ ?_ h
      · exact hpos
      · simp only [toU32, hpos]
        omega
    · rw [sysReadLoop, if_pos hleft, hchunk, hpos, bind_eq_ok] at h
      obtain ⟨r, hread, -⟩ := h
      exact read_overflow h0 hlt (by omega) (by omega) t.buffer r hread

/-- A chunk inside the file with two blocks or more after its first. -/
theorem sysReadLoop_long {disk : Disk} {inode : Inode} (hle : inode.iSize ≤ maxSize) {fuel pos n : Nat}
    {t t' : Reading} (hpos : t.fPos = pos) (hleft : t.left = n)
    (hend : ((pos + min n 4096 : Nat) : Int) ≤ inode.iSize)
    (hrest : 2048 ≤ restBytes pos (min n 4096)) : sysReadLoop disk inode fuel t ≠ .ok t' := by
  cases fuel with
  | zero => nofun
  | succ fuel =>
    intro h
    have hsplit := first_add_rest pos (min n 4096)
    have hchunk := chunk_nat n
    rw [← hleft] at hchunk
    rw [sysReadLoop, if_pos (by omega), hchunk, hpos, bind_eq_ok] at h
    obtain ⟨r, hread, -⟩ := h
    simp only [maxSize] at hle
    have hwrap : wrap (pos + (min n 4096 : Nat)) ≤ inode.iSize := by
      rw [wrap_of_range (by omega) (by omega)]
      push_cast at hend ⊢
      exact hend
    exact read_long hwrap hrest t.buffer r hread

/-- The first round of a read that asks for more than the file has. -/
theorem sysReadLoop_over {disk : Disk} {inode : Inode} (hle : inode.iSize ≤ maxSize) {fuel pos n : Nat}
    {t : Reading} (hpos : t.fPos = pos) (hleft : t.left = n) (hn : 0 < n) (hcount : t.count = n)
    (hin : (pos : Int) ≤ inode.iSize) (hpast : inode.iSize < ((pos + min n 4096 : Nat) : Int)) :
    sysReadLoop disk inode (fuel + 1) t = sysReadLoop disk inode fuel
      { t with count := inode.iSize - pos, left := inode.iSize - pos } := by
  simp only [maxSize] at hle
  have hread := @read_past disk inode pos (min n 4096) t.buffer hpast (by omega)
  rw [← chunk_nat, ← hpos, ← hleft] at hread
  have hrest : toU32 (inode.iSize - pos) = inode.iSize - pos :=
    toU32_of_range (by omega) (by omega)
  rw [sysReadLoop_cut (by omega) hread, hcount, hleft, hpos, sub_sub_cancel, hrest]

/-- The last chunk, inside the file. -/
theorem read_taken {disk : Disk} {inode : Inode} (hown : Owned disk inode) {pos n : Nat}
    {t : Reading} (hpos : t.fPos = pos) (hleft : t.left = n) (hn : 0 < n)
    (hend : ((pos + n : Nat) : Int) ≤ inode.iSize) (hrest : restBytes pos n < 2048) :
    Zone.read disk inode t.fPos t.buffer (chunk t.left) =
      .ok (n, pageRead disk inode pos n t.buffer) := by
  have hle := hown.le
  simp only [maxSize] at hle
  have hsplit := first_add_rest pos n
  have hfirst : firstBytes pos n ≤ 1024 - pos % 1024 := min_le_right _ _
  have hchunk : chunk t.left = n := by
    rw [hleft, chunk_nat, min_eq_left (by omega)]
  rw [hpos, hchunk]
  exact read_eq hown.le hn hend hrest t.buffer

theorem sysReadLoop_take {disk : Disk} {inode : Inode} (hown : Owned disk inode) {pos n : Nat}
    {t : Reading} (hpos : t.fPos = pos) (hleft : t.left = n)
    (hend : ((pos + n : Nat) : Int) ≤ inode.iSize) (hrest : restBytes pos n < 2048)
    (hshown : 0 < n → Shown (Transfer.readText ⟨pos, n, pageRead disk inode pos n t.buffer⟩)
      (t.screen t.done)) :
    ∃ t', sysReadLoop disk inode 2 t = .ok t' ∧ t'.fPos = pos + n ∧ t'.left = 0 ∧
      t'.count = t.count := by
  have hle := hown.le
  simp only [maxSize] at hle
  rcases Nat.eq_zero_or_pos n with rfl | hn
  · exact ⟨t, sysReadLoop_end hleft, by omega, by omega, rfl⟩
  have hread := read_taken hown hpos hleft hn hend hrest
  have hzero : toU32 (t.left - n) = 0 := by
    rw [hleft, sub_self]
    rfl
  have hline := hshown hn
  rw [← hpos] at hline
  have hround := @sysReadLoop_got disk inode 1 t n _ (by omega) hread (by omega) hline
  refine ⟨_, hround.trans (sysReadLoop_end hzero), ?_, hzero, rfl⟩
  show wrap (t.fPos + n) = pos + n
  rw [hpos]
  exact wrap_of_range (by omega) (by omega)

/-- A loop that came back has shown its last chunk. -/
theorem sysReadLoop_took {disk : Disk} {inode : Inode} (hown : Owned disk inode) {fuel pos n : Nat}
    {t t' : Reading} (hpos : t.fPos = pos) (hleft : t.left = n)
    (hend : ((pos + n : Nat) : Int) ≤ inode.iSize) (hrest : restBytes pos n < 2048)
    (hloop : sysReadLoop disk inode fuel t = .ok t') :
    0 < n → Shown (Transfer.readText ⟨pos, n, pageRead disk inode pos n t.buffer⟩)
      (t.screen t.done) := by
  intro hn
  cases fuel with
  | zero => cases hloop
  | succ fuel =>
    have hread := read_taken hown hpos hleft hn hend hrest
    have hshown := sysReadLoop_shown (by omega) hread (by omega) hloop
    rwa [hpos] at hshown

/-- A read that fits returns what is left of the file, up to its count. -/
theorem sysRead_of_fits (hs : Sound s) {count : Nat} (hcount : count < 2 ^ 32)
    {found : Found} (hpaged : found.Paged) (hfits : ReadFitting s count found)
    (usr : Nat → UInt8) : ∃ fuel n usr', n ≤ count ∧ (s.fPos + n : Int) < 2 ^ 31 ∧
      sysRead fuel s count found usr = .ok (n, usr', { s with fPos := s.fPos + n }) := by
  obtain ⟨hpos0, hposlt⟩ := hs.position
  obtain ⟨pos, hpos⟩ := Int.eq_ofNat_of_zero_le hpos0
  rcases Nat.eq_zero_or_pos count with rfl | hc
  · refine ⟨1, 0, usr, le_rfl, by simpa using hposlt, ?_⟩
    rw [sysRead, withPage_of hpaged, sysReadLoop_end rfl, ok_bind]
    simp [wrap]
  obtain ⟨hin, hrest, hshown⟩ := Or.resolve_left hfits (Nat.ne_of_gt hc)
  have hle := hs.owned.le
  simp only [maxSize] at hle
  have hsplit := first_add_rest pos (available s count)
  have hfirst : firstBytes pos (available s count) ≤ 1024 - pos % 1024 := min_le_right _ _
  have hav : available s count = min count (s.inode.iSize.toNat - pos) := by
    rw [available, hpos, Int.toNat_natCast]
  rw [ReadShown, hpos, Int.toNat_natCast] at hshown
  rw [hpos, Int.toNat_natCast] at hrest
  have hend : ((pos + available s count : Nat) : Int) ≤ s.inode.iSize := by omega
  -- the loop comes to an end at the same place, with or without a round that is cut
  suffices hloop : ∃ fuel t, sysReadLoop s.disk s.inode fuel
      ⟨s.fPos, count, count, 0, found.page, usr, found.screen⟩ = .ok t ∧
        t.fPos = pos + available s count ∧ t.left = 0 ∧ t.count = available s count by
    obtain ⟨fuel, t, hloop, hp, hl, hcnt⟩ := hloop
    refine ⟨fuel, available s count, t.usr, min_le_left _ _, by omega, ?_⟩
    rw [sysRead, withPage_of hpaged, hloop, ok_bind, hcnt, hl, hp, sub_zero,
      wrap_of_range (by omega) (by omega), hpos]
    rfl
  by_cases hshort : ((pos + count : Nat) : Int) ≤ s.inode.iSize
  · have hall : available s count = count := by omega
    rw [hall] at hend hrest hshown ⊢
    obtain ⟨t, hloop, hp, hl, hcnt⟩ := @sysReadLoop_take s.disk s.inode hs.owned pos count
      ⟨s.fPos, count, count, 0, found.page, usr, found.screen⟩ hpos rfl hend hrest hshown
    exact ⟨2, t, hloop, hp, hl, hcnt⟩
  · have hrest' : s.inode.iSize - pos = available s count := by omega
    have hover := @sysReadLoop_over s.disk s.inode hs.owned.le 2 pos count
      ⟨s.fPos, count, count, 0, found.page, usr, found.screen⟩ hpos rfl hc rfl (by omega) (by omega)
    obtain ⟨t, hloop, hp, hl, hcnt⟩ := @sysReadLoop_take s.disk s.inode hs.owned pos
      (available s count) ⟨s.fPos, s.inode.iSize - pos, s.inode.iSize - pos, 0, found.page, usr,
        found.screen⟩ hpos hrest' hend hrest hshown
    exact ⟨3, t, hover.trans hloop, hp, hl, hcnt.trans hrest'⟩

/-- A read that returns is one that fits. -/
theorem sysRead_only_fits (hs : Sound s) {count : Nat} (hcount : count < 2 ^ 32)
    {found : Found} {usr : Nat → UInt8} {fuel : Nat} {r : Int × (Nat → UInt8) × OpenFile}
    (h : sysRead fuel s count found usr = .ok r) : found.Paged ∧ ReadFitting s count found := by
  rw [sysRead, withPage_eq_ok] at h
  obtain ⟨hpaged, h⟩ := h
  refine ⟨hpaged, ?_⟩
  obtain ⟨hpos0, hposlt⟩ := hs.position
  obtain ⟨pos, hpos⟩ := Int.eq_ofNat_of_zero_le hpos0
  rcases Nat.eq_zero_or_pos count with hzero | hc
  · exact .inl hzero
  right
  have hle := hs.owned.le
  have h0 := hs.owned.nonneg
  simp only [maxSize] at hle
  obtain ⟨t, hloop, -⟩ := bind_eq_ok.mp h
  have hav : available s count = min count (s.inode.iSize.toNat - pos) := by
    rw [available, hpos, Int.toNat_natCast]
  have hstop : s.fPos ≤ s.inode.iSize := by
    by_contra hpast
    exact sysReadLoop_past h0 hpos (by omega) (by omega) (by show (0 : Int) < count; omega) hloop
  rw [ReadShown, hpos, Int.toNat_natCast]
  suffices hrest : restBytes pos (available s count) < 2048 by
    have hend : ((pos + available s count : Nat) : Int) ≤ s.inode.iSize := by omega
    refine ⟨hpos ▸ hstop, hrest, ?_⟩
    by_cases hpast : s.inode.iSize < ((pos + min count 4096 : Nat) : Int)
    · cases fuel with
      | zero => cases hloop
      | succ fuel =>
        rw [sysReadLoop_over hs.owned.le hpos rfl hc rfl (by omega) hpast] at hloop
        have hleft : s.inode.iSize - pos = available s count := by omega
        have hline := sysReadLoop_took hs.owned hpos hleft hend hrest hloop
        exact hline
    · have hsplit := first_add_rest pos (available s count)
      have hfirst : firstBytes pos (available s count) ≤ 1024 - pos % 1024 := min_le_right _ _
      have hall : available s count = count := by omega
      rw [hall] at hend hrest ⊢
      have hline := sysReadLoop_took hs.owned hpos rfl hend hrest hloop
      exact hline
  by_contra hlong
  rw [not_lt] at hlong
  have hsplit := first_add_rest pos (available s count)
  have hrest : 2048 ≤ restBytes pos (min (available s count) 4096) := by
    simp only [restBytes, firstBytes] at hlong ⊢
    omega
  by_cases hpast : s.inode.iSize < ((pos + min count 4096 : Nat) : Int)
  · cases fuel with
    | zero => cases hloop
    | succ fuel =>
      rw [sysReadLoop_over hs.owned.le hpos rfl hc rfl (by omega) hpast] at hloop
      have hleft : s.inode.iSize - pos = available s count := by omega
      exact sysReadLoop_long hs.owned.le hpos hleft (by omega) hrest hloop
  · refine sysReadLoop_long hs.owned.le hpos rfl (not_lt.mp hpast) ?_ hloop
    have hsame : min (available s count) 4096 = min count 4096 := by omega
    rwa [← hsame]

/-! ## Writes -/

/-- Growing that returns had the room, and stays below zone 7. -/
theorem room_of_grow {disk : Disk} {inode : Inode} {n : Nat} {cur : Int} {r : Disk × Inode}
    (hmeta : Reserved disk) (h : grow n cur disk inode = .ok r) :
    Room disk n ∧ (0 < n → cur + n ≤ 7) := by
  induction n generalizing cur disk inode with
  | zero => exact ⟨⟨∅, le_rfl, by simp⟩, fun h0 => absurd h0 (lt_irrefl 0)⟩
  | succ n ih =>
    simp only [grow, bind_eq_ok] at h
    obtain ⟨⟨b, disk₁⟩, hget, inode₁, hset, h⟩ := h
    obtain ⟨-, hlt, hfree, -, hbits, -⟩ := getBlk_spec hmeta hget
    obtain ⟨-, h6, -⟩ := setZoneBlk_ok hset
    have hmeta₁ : Reserved disk₁ := fun k hk =>
      (hbits k (hk.trans (by decide))).mpr (.inr (hmeta k hk))
    obtain ⟨⟨blocks, hcard, hblocks⟩, hbound⟩ := ih hmeta₁ h
    have hnew : b ∉ blocks := fun hb => (hblocks b hb).2 ((hbits b hlt).mpr (.inl rfl))
    refine ⟨⟨insert b blocks, ?_, fun k hk => ?_⟩, fun _ => ?_⟩
    · rw [Finset.card_insert_of_notMem hnew]
      omega
    · rcases Finset.mem_insert.mp hk with rfl | hk
      · exact ⟨hlt, hfree⟩
      · obtain ⟨hsmall, hbit⟩ := hblocks k hk
        exact ⟨hsmall, fun hold => hbit ((hbits k hsmall).mpr (.inr hold))⟩
    · rcases Nat.eq_zero_or_pos n with rfl | hn
      · push_cast
        omega
      · have hrest := hbound hn
        push_cast
        omega

/-- A _write that returns stays below the seventh zone, and found the blocks it needed. -/
theorem write_needs {disk : Disk} {inode : Inode} {pos count : Nat} {buf : Nat → UInt8}
    {ptrs : Pointers} {r : Int × Disk × Inode} (hmeta : Reserved disk) (hown : Owned disk inode)
    (hcount : 0 < count) (hsmall : count ≤ 4096)
    (h : write disk inode pos buf count ptrs = .ok r) : ((pos + count : Nat) : Int) ≤ maxSize ∧
      Room disk (zonesOf (pos + count) - zonesOf inode.iSize).toNat := by
  rw [write_eq hcount, bind_eq_ok] at h
  obtain ⟨⟨disk₁, inode₁⟩, hres, h⟩ := h
  simp only [bind_eq_ok] at h
  obtain ⟨blk, hget, -⟩ := h
  obtain ⟨-, h6, -⟩ := getZoneBlk_ok hget
  have hold := zonesOf_eq hown.nonneg hown.le
  have hle := hown.le
  simp only [maxSize] at hle
  have hnew : zonesOf (pos + count) = (pos + count + 1023) / 1024 := by
    rw [zonesOf, wrap_of_range (by omega) (by omega), Int.tdiv_eq_ediv_of_nonneg (by omega)]
  simp only [reserveZone, bind_eq_ok] at hres
  obtain ⟨_, -, hres⟩ := hres
  simp only [maxSize]
  by_cases hlt : zonesOf inode.iSize < zonesOf (pos + count)
  · rw [if_pos hlt] at hres
    obtain ⟨hroom, hbound⟩ := room_of_grow hmeta hres
    have h7 := hbound (by omega)
    exact ⟨by omega, hroom⟩
  · have hnone : (zonesOf (pos + count) - zonesOf inode.iSize).toNat = 0 := by omega
    rw [hnone]
    exact ⟨by omega, ∅, le_rfl, by simp⟩

section Kept

variable {disk disk' : Disk} {inode inode' : Inode} {pos count : Nat} {buf : Nat → UInt8}

/-- The maps after a write: the inode map stays, and the zone map has the new zones. -/
theorem maps_after (hmeta : Reserved disk) (hown : Owned disk inode)
    (hend : ((pos + count : Nat) : Int) ≤ maxSize)
    (h : Steps disk inode pos count buf disk' inode') : disk' 2 = disk 2 ∧
      ∀ b < sectorBits, ZoneBit disk' b ↔ ZoneBit disk b ∨
        ∃ k : Fin 9, zonesOf inode.iSize ≤ (k : Int) ∧ (k : Int) < zonesOf (pos + count) ∧
          inode'.iZone k = b := by
  obtain ⟨-, -, disk₁, inode₁, disk₂, block, hgrown, hstored, rfl, hzone⟩ := h
  obtain ⟨h7, -, -, -⟩ := zones_bound hown hend
  have hz := hgrown.zones hown h7
  have hlow : ∀ b < super.sDataStart, ∀ k : Fin 9,
      (k : Int) < max (zonesOf inode.iSize) (zonesOf (pos + count)) → inode₁.iZone k ≠ b := by
    intro b hb k hk heq
    have hdata := hz.data k hk
    rw [heq] at hdata
    exact absurd hb (Nat.not_lt.mpr hdata)
  have hrec : super.sItableStart ≤ inodeBlk inode.iInum := Nat.le_add_left _ _
  have hrec4 : 4 ≤ inodeBlk inode.iInum := hrec
  have hblock : ∀ b < 4, Function.update disk₂ (inodeBlk inode.iInum) block b = disk₁ b := by
    intro b hb
    have hne : b ≠ inodeBlk inode.iInum := by omega
    rw [Function.update_of_ne hne, hstored.frame b (hlow b (hb.trans (by decide)))]
  refine ⟨?_, fun b hb => ?_⟩
  · rw [hblock 2 (by decide)]
    exact hgrown.kept 2 (by decide) (by decide) (hmeta 2 (by decide))
  · rw [zoneBit_congr (hblock 3 (by decide)) hb, hgrown.bits b hb, hzone]

theorem owned_after (hmeta : Reserved disk) (hown : Owned disk inode)
    (hend : ((pos + count : Nat) : Int) ≤ maxSize)
    (h : Steps disk inode pos count buf disk' inode') : Owned disk' inode' := by
  obtain ⟨-, hbits⟩ := maps_after hmeta hown hend h
  obtain ⟨hsize, -, disk₁, inode₁, disk₂, block, hgrown, -, -, hzone⟩ := h
  obtain ⟨h7, -, -, hmax⟩ := zones_bound hown hend
  have hz := hgrown.zones hown h7
  have hzones : zonesOf inode'.iSize = max (zonesOf inode.iSize) (zonesOf (pos + count)) := by
    rw [hsize, hmax]
  refine ⟨?_, ?_, fun k hk => ?_, fun k l hk hl heq => ?_⟩
  · rw [hsize]
    exact le_max_of_le_left hown.nonneg
  · rw [hsize]
    exact max_le hown.le hend
  · rw [hzones] at hk
    by_cases hkz : (k : Int) < zonesOf inode.iSize
    · obtain ⟨hbit, hdata, hlt⟩ := hown.taken k hkz
      have hsame : inode'.iZone k = inode.iZone k := by rw [hzone, hgrown.old k hkz]
      rw [hsame]
      exact ⟨(hbits _ hlt).mpr (.inl hbit), hdata, hlt⟩
    · have hkm : (k : Int) < zonesOf (pos + count) := (lt_max_iff.mp hk).resolve_left hkz
      obtain ⟨-, hdata, hlt, -⟩ := hgrown.fresh k (not_lt.mp hkz) hkm
      rw [← hzone] at hdata hlt
      exact ⟨(hbits _ hlt).mpr (.inr ⟨k, not_lt.mp hkz, hkm, rfl⟩), hdata, hlt⟩
  · rw [hzones] at hk hl
    rw [hzone] at heq
    exact hz.inj k l hk hl heq

theorem live_after (hmeta : Reserved disk) (hown : Owned disk inode) (hlive : Live disk inode)
    (hend : ((pos + count : Nat) : Int) ≤ maxSize)
    (h : Steps disk inode pos count buf disk' inode') : Live disk' inode' := by
  obtain ⟨hmap, -⟩ := maps_after hmeta hown hend h
  have hinum : inode'.iInum = inode.iInum := h.iInum
  refine ⟨?_, ?_, ?_, ?_⟩
  · rw [hinum]
    exact hlive.ne_zero
  · rw [hinum]
    exact hlive.lt
  · rw [hinum, inodeBit_congr hmap hlive.lt]
    exact hlive.bit
  · rw [hinum]
    exact hlive.record

/-- Zones that the file had, or that lie past its new end, are as before. -/
theorem zones_after (hown : Owned disk inode) (hend : ((pos + count : Nat) : Int) ≤ maxSize)
    (h : Steps disk inode pos count buf disk' inode') {k : Fin 9}
    (hk : (k : Int) < zonesOf inode.iSize ∨ zonesOf inode'.iSize ≤ (k : Int)) :
    inode'.iZone k = inode.iZone k := by
  obtain ⟨-, -, -, hmax⟩ := zones_bound hown hend
  obtain ⟨hsize, -, disk₁, inode₁, disk₂, block, hgrown, -, -, hzone⟩ := h
  rw [hzone]
  rcases hk with hold | hlate
  · exact hgrown.old k hold
  · refine hgrown.later k ?_
    rw [hsize, hmax] at hlate
    exact (le_max_right _ _).trans hlate

end Kept

/-- The write that fits, in terms of its parts. -/
structure WriteReady (s : OpenFile) (pos count : Nat) : Prop where
  bound : ((pos + count : Nat) : Int) ≤ maxSize
  room : Room s.disk (zonesOf (pos + count) - zonesOf s.inode.iSize).toNat
  fits : WriteFits s.inode pos count

/-- Less than two blocks after the first are less than a page. -/
theorem WriteReady.lt_page {pos count : Nat} (h : WriteReady s pos count) : count ≤ 4096 := by
  have hrest := h.fits.1
  simp only [restBytes, firstBytes] at hrest
  omega

theorem sysWriteLoop_end {usr : Nat → UInt8} {ptrs : Pointers} {fuel : Nat} {t : Writing}
    (hleft : t.left = 0) : sysWriteLoop usr ptrs (fuel + 1) t = .ok t := by
  rw [sysWriteLoop, if_neg (by omega)]
  rfl

theorem sysWriteLoop_put {usr : Nat → UInt8} {ptrs : Pointers} {fuel : Nat} {t : Writing}
    {bytes : Int} {disk : Disk} {inode : Inode} (hleft : 0 < t.left)
    (hwrite : Zone.write t.file.disk t.file.inode t.file.fPos (filled usr t) (chunk t.left) ptrs =
      .ok (bytes, disk, inode)) (hbytes : 0 < bytes)
    (hshown : Shown (Transfer.writeText ⟨t.file.fPos, chunk t.left, filled usr t⟩)
      (t.screen t.done)) :
    sysWriteLoop usr ptrs (fuel + 1) t = sysWriteLoop usr ptrs fuel
      ⟨⟨disk, inode, wrap (t.file.fPos + bytes)⟩, toU32 (t.left - bytes), t.done + bytes.toNat,
        filled usr t, t.screen⟩ := by
  rw [sysWriteLoop, if_pos hleft, printed_of_shown hshown, ok_bind, hwrite, ok_bind]
  exact if_pos hbytes

theorem filled_first {found : Found} {usr : Nat → UInt8} {count : Nat} (hcount : count ≤ 4096) :
    filled usr ⟨s, count, 0, found.page, found.screen⟩ =
      fun i => if i < count then usr i else found.page i := by
  ext i
  have hchunk : chunk count = count := by
    rw [chunk_nat, min_eq_left hcount]
  simp only [filled, hchunk, Nat.cast_lt, zero_add]

/-- A write that fits is done whole, and leaves a file without a hole. -/
theorem sysWrite_of_fits (hs : Sound s) {pos count : Nat} (hpos : s.fPos = pos) (hc : 0 < count)
    (hready : WriteReady s pos count) {found : Found} {usr : Nat → UInt8} (hpaged : found.Paged)
    (hshown : WriteShown s count found usr) (ptrs : Pointers) :
    ∃ s', sysWrite 2 s count found usr ptrs = .ok (count, s') ∧ s'.fPos = pos + count ∧
      s'.inode.iSize = max s.inode.iSize ((pos + count : Nat) : Int) ∧
      (∀ k : Fin 9, (k : Int) < zonesOf s.inode.iSize ∨ zonesOf s'.inode.iSize ≤ (k : Int) →
        s'.inode.iZone k = s.inode.iZone k) ∧ Sound s' := by
  have hbound := hready.bound
  simp only [maxSize] at hbound
  have hchunk : chunk count = count := by
    rw [chunk_nat, min_eq_left hready.lt_page]
  obtain ⟨disk', inode', hwrite, hsteps⟩ := write_of_fits hs.reserved hs.owned hs.live hready.room
    hc hready.bound hready.fits (filled usr ⟨s, count, 0, found.page, found.screen⟩) ptrs
  have hpage : Zone.write s.disk s.inode s.fPos
      (filled usr ⟨s, count, 0, found.page, found.screen⟩) (chunk count) ptrs =
        .ok (count, disk', inode') := by
    rw [hpos, hchunk]
    exact hwrite
  have hline : Shown (Transfer.writeText ⟨s.fPos, chunk count,
      filled usr ⟨s, count, 0, found.page, found.screen⟩⟩) (found.screen 0) := by
    rw [hchunk, filled_first hready.lt_page]
    exact hshown
  have hzero : toU32 ((count : Int) - count) = 0 := by
    rw [sub_self]
    rfl
  have hwrap : wrap (s.fPos + count) = pos + count := by
    rw [hpos]
    exact wrap_of_range (by omega) (by omega)
  refine ⟨⟨disk', inode', pos + count⟩, ?_, rfl, hsteps.size, fun k hk => ?_, ?_⟩
  · have hloop : sysWriteLoop usr ptrs 2 ⟨s, count, 0, found.page, found.screen⟩ =
        .ok ⟨⟨disk', inode', pos + count⟩, 0, 0 + count,
          filled usr ⟨s, count, 0, found.page, found.screen⟩, found.screen⟩ := by
      have hround := @sysWriteLoop_put usr ptrs 1 ⟨s, count, 0, found.page, found.screen⟩ count disk'
        inode' (by show (0 : Int) < count; omega) hpage (by omega) hline
      rw [hround]
      simp only [hwrap, hzero, Int.toNat_natCast]
      exact sysWriteLoop_end rfl
    rw [sysWrite, withPage_of hpaged, hloop, ok_bind, sub_zero,
      wrap_of_range (by omega) (by omega)]
    rfl
  · exact zones_after hs.owned hready.bound hsteps hk
  · obtain ⟨-, hbits⟩ := maps_after hs.reserved hs.owned hready.bound hsteps
    refine ⟨fun b hb => ?_, owned_after hs.reserved hs.owned hready.bound hsteps,
      live_after hs.reserved hs.owned hs.live hready.bound hsteps, ?_⟩
    · exact (hbits b (hb.trans (by decide))).mpr (.inl (hs.reserved b hb))
    · constructor
      · show (0 : Int) ≤ pos + count
        omega
      · show (pos + count : Int) < 2 ^ 31
        omega

/-- A write that returns is one that fits. -/
theorem sysWrite_only_fits (hs : Sound s) {pos count : Nat} (hpos : s.fPos = pos) (hc : 0 < count)
    {found : Found} {usr : Nat → UInt8} {ptrs : Pointers} {fuel : Nat} {r : Int × OpenFile}
    (h : sysWrite fuel s count found usr ptrs = .ok r) :
    WriteReady s pos count ∧ WriteShown s count found usr := by
  rw [sysWrite, withPage_eq_ok] at h
  obtain ⟨t, hloop, -⟩ := bind_eq_ok.mp h.2
  cases fuel with
  | zero => cases hloop
  | succ fuel =>
    have hleft : (0 : Int) < count := by omega
    rw [sysWriteLoop, if_pos hleft, bind_eq_ok] at hloop
    obtain ⟨u, hprint, hloop⟩ := hloop
    obtain ⟨r', hwrite, -⟩ := bind_eq_ok.mp hloop
    have hline := printed_eq_ok.mp hprint
    simp only [chunk_nat, hpos] at hwrite
    obtain ⟨hbound, hroom⟩ := write_needs hs.reserved hs.owned (by omega) (by omega) hwrite
    have hfits := write_only_fits hs.reserved hs.owned hs.live hroom (by omega) hbound hwrite
    -- a whole page never fits, so the first chunk is the whole count
    have hall : min count 4096 = count := by
      have hrest := hfits.1
      simp only [restBytes, firstBytes] at hrest
      omega
    rw [hall] at hbound hroom hfits
    have hchunk : chunk count = count := by
      rw [chunk_nat, hall]
    rw [hchunk, filled_first (min_eq_left_iff.mp hall)] at hline
    exact ⟨⟨hbound, hroom, hfits⟩, hline⟩

/-! ## Positions -/

theorem target_range (hs : Sound s) {offset whence x : Int} (hlo : -2 ^ 31 ≤ offset)
    (hhi : offset < 2 ^ 31) (h : target s offset whence = some x) : -2 ^ 31 ≤ x ∧ x < 2 ^ 32 := by
  obtain ⟨hpos0, hposlt⟩ := hs.position
  have hsize0 := hs.owned.nonneg
  have hsize := hs.owned.le
  simp only [maxSize] at hsize
  rw [target] at h
  split_ifs at h with hset hcur hend
  · cases h
    omega
  · cases h
    omega
  · cases h
    omega

/-- sys_lseek goes to the target, whatever it wraps around to. -/
theorem sysLseek_target {offset whence x : Int} (hlo : -2 ^ 31 ≤ offset) (hhi : offset < 2 ^ 31)
    (h : target s offset whence = some x) :
    sysLseek s offset whence = (wrap x, { s with fPos := wrap x }) := by
  rw [target] at h
  rw [sysLseek]
  split_ifs at h ⊢ with hset hcur hend
  · cases h
    rw [wrap_of_range hlo hhi]
  · cases h
    rfl
  · cases h
    rfl

theorem sysLseek_unknown {offset whence : Int} (h : target s offset whence = none) :
    sysLseek s offset whence = (-1, s) := by
  rw [target] at h
  rw [sysLseek]
  split_ifs at h ⊢ with hset hcur hend
  rfl

/-- A position that an off_t does not hold comes out negative. -/
theorem wrap_neg {x : Int} (hlo : -2 ^ 31 ≤ x) (hhi : x < 2 ^ 32) (h : ¬Position x) :
    wrap x < 0 := by
  simp only [Position] at h
  simp only [wrap]
  omega

/-! ## Runs -/

/-- A fitting call is answered, and the descriptor stays sound. -/
theorem Sound.answered (hs : Sound s) {a : Call} (h : Fitting s a) : ∃ fuel ret s',
    syscall fuel s a = .ok (ret, s') ∧ Answer s a ret s' ∧ Sound s' := by
  obtain ⟨hpos0, hposlt⟩ := hs.position
  obtain ⟨pos, hpos⟩ := Int.eq_ofNat_of_zero_le hpos0
  cases a with
  | lseek offset whence =>
    have hlo : -2 ^ 31 ≤ offset.toInt := BitVec.le_toInt offset
    have hhi : offset.toInt < 2 ^ 31 := BitVec.toInt_lt
    cases htarget : target s offset.toInt whence.toInt with
    | none =>
      have hcall : syscall 0 s (.lseek offset whence) = .ok (-1, s) := by
        rw [syscall, sysLseek_unknown htarget]
        rfl
      refine ⟨0, -1, s, hcall, ⟨rfl, rfl, .inr ⟨fun x hx => ?_, rfl, rfl⟩⟩, hs⟩
      rw [htarget] at hx
      cases hx
    | some x =>
      have hx := h x htarget
      have hwrap : wrap x = x := wrap_of_range (by have := hx.1; omega) hx.2
      have hcall : syscall 0 s (.lseek offset whence) = .ok (x, { s with fPos := x }) := by
        rw [syscall, sysLseek_target hlo hhi htarget, hwrap]
        rfl
      exact ⟨0, x, { s with fPos := x }, hcall, ⟨rfl, rfl, .inl ⟨x, htarget, hx, rfl, rfl⟩⟩,
        hs.reserved, hs.owned, hs.live, hx⟩
  | read count found usr =>
    obtain ⟨fuel, n, usr', hn, hlt, hread⟩ := sysRead_of_fits hs count.isLt h.1 h.2 usr
    refine ⟨fuel, n, { s with fPos := s.fPos + n }, ?_, ⟨rfl, rfl, .inr ⟨?_, ?_, rfl⟩⟩, ?_⟩
    · rw [syscall, hread]
      rfl
    · exact Int.natCast_nonneg n
    · exact Int.ofNat_le.mpr hn
    · exact ⟨hs.reserved, hs.owned, hs.live, by show 0 ≤ s.fPos + n; omega, hlt⟩
  | write count found usr ptrs =>
    obtain ⟨hpaged, h⟩ := h
    rcases Nat.eq_zero_or_pos count.toNat with hzero | hc
    · refine ⟨1, 0, s, ?_, .inr ⟨le_rfl, ?_, ?_, ?_, fun _ _ => rfl⟩, hs⟩
      · rw [syscall, sysWrite, withPage_of hpaged, hzero, sysWriteLoop_end rfl]
        rfl
      · exact Int.natCast_nonneg _
      · rw [add_zero]
      · rw [if_pos rfl]
    · obtain ⟨hbound, hroom, hfits, hshown⟩ := Or.resolve_left h (Nat.ne_of_gt hc)
      rw [hpos] at hbound hroom hfits
      rw [Int.toNat_natCast] at hfits
      have hready : WriteReady s pos count.toNat := ⟨by push_cast; exact hbound, hroom, hfits⟩
      obtain ⟨s', hwrite, hpos', hsize, hzones, hs'⟩ :=
        sysWrite_of_fits hs hpos hc hready hpaged hshown ptrs
      refine ⟨2, count.toNat, s', hwrite, .inr ⟨?_, le_rfl, ?_, ?_, hzones⟩, hs'⟩
      · exact Int.natCast_nonneg _
      · rw [hpos', hpos]
      · rw [if_neg (by omega), hsize, hpos]
        push_cast
        rfl

/-- Only fitting calls are answered. -/
theorem Sound.fitting (hs : Sound s) {a : Call} (h : Handled s a) : Fitting s a := by
  obtain ⟨hpos0, hposlt⟩ := hs.position
  obtain ⟨pos, hpos⟩ := Int.eq_ofNat_of_zero_le hpos0
  obtain ⟨fuel, ret, s', hcall, hanswer⟩ := h
  cases a with
  | lseek offset whence =>
    have hlo : -2 ^ 31 ≤ offset.toInt := BitVec.le_toInt offset
    have hhi : offset.toInt < 2 ^ 31 := BitVec.toInt_lt
    intro x hx
    by_contra hbad
    obtain ⟨hxlo, hxhi⟩ := target_range hs hlo hhi hx
    have hneg := wrap_neg hxlo hxhi hbad
    obtain ⟨-, -, ⟨y, hy, hgood, -⟩ | ⟨-, -, hsame⟩⟩ := hanswer
    · cases Option.some.inj (hx.symm.trans hy)
      exact hbad hgood
    · have hmoved : s' = { s with fPos := wrap x } := by
        have hres := Except.ok.inj hcall
        rw [sysLseek_target hlo hhi hx] at hres
        exact (Prod.mk.inj hres).2.symm
      rw [hmoved] at hsame
      have hwrap : wrap x = s.fPos := hsame
      omega
  | read count found usr =>
    simp only [syscall, bind_eq_ok] at hcall
    obtain ⟨r, hread, -⟩ := hcall
    exact sysRead_only_fits hs count.isLt hread
  | write count found usr ptrs =>
    have hpaged : found.Paged := (withPage_eq_ok.mp hcall).1
    refine ⟨hpaged, ?_⟩
    rcases Nat.eq_zero_or_pos count.toNat with hzero | hc
    · exact .inl hzero
    · obtain ⟨⟨hbound, hroom, hfits⟩, hshown⟩ := sysWrite_only_fits hs hpos hc hcall
      right
      rw [hpos, Int.toNat_natCast]
      push_cast at hbound
      exact ⟨hbound, hroom, hfits, hshown⟩

theorem Sound.step {a : Call} (hs : Sound s) (hfit : Fitting s a) (h : Step s a s') :
    Sound s' := by
  obtain ⟨fuel, ret, hcall⟩ := h
  obtain ⟨fuel', ret', t, hcall', -, ht⟩ := hs.answered hfit
  cases (Prod.mk.inj (syscall_det hcall hcall')).2
  exact ht

/-- Along every run of fitting calls the position is never negative, and after it exactly the
fitting calls are answered. -/
theorem handled_iff_fitting {tr : List (Call × OpenFile)} (hs : Sound s) (h : Exec Step s tr)
    (hfit : Guarded Fitting s tr) : Always (fun t => 0 ≤ t.fPos) s tr ∧
      ∀ a, Handled (last s tr) a ↔ Fitting (last s tr) a := by
  have hstep : ∀ s a s', Sound s → Fitting s a → Step s a s' → Sound s' :=
    fun _ _ _ hs hfit hst => hs.step hfit hst
  have hsound : Always Sound s tr := h.always_of_guarded hstep hs hfit
  refine ⟨hsound.imp fun t ht => ht.position.1, fun a => ⟨hsound.last.fitting, fun ha => ?_⟩⟩
  obtain ⟨fuel, ret, s', hcall, hanswer, -⟩ := hsound.last.answered ha
  exact ⟨fuel, ret, s', hcall, hanswer⟩

/-- An empty file, just opened. -/
def emptyOpen : OpenFile := ⟨emptyDisk, emptyFile, 0⟩

theorem emptyOpen_sound : Sound emptyOpen :=
  ⟨emptyDisk_reserved, emptyFile_noHole.toOwned, emptyFile_live, by decide, by decide⟩

theorem handled_iff_fitting_one_byte :
    ∃ s', Step emptyOpen (.write 1 cleared (fun _ => 7) fun _ => 0) s' ∧ 0 ≤ s'.fPos ∧
      ∀ a, Handled s' a ↔ Fitting s' a := by
  have hpage : Terminated (fun i => if i < 1 then 7 else 0) 0 1 := by
    refine ⟨fun i hi => ?_, rfl⟩
    obtain rfl : i = 0 := Nat.lt_one_iff.mp hi
    decide
  have hfit : Fitting emptyOpen (.write 1 cleared (fun _ => 7) fun _ => 0) :=
    ⟨cleared_paged, .inr ⟨by decide, emptyDisk_room.mono (by decide), ⟨by decide, by decide⟩,
      writeText_shown hpage (by decide) _ _⟩⟩
  obtain ⟨fuel, ret, s', hcall, -, -⟩ := emptyOpen_sound.answered hfit
  obtain ⟨hpos, hall⟩ := handled_iff_fitting emptyOpen_sound
    (.cons ⟨fuel, ret, hcall⟩ (.nil s')) ⟨hfit, trivial⟩
  exact ⟨s', ⟨fuel, ret, hcall⟩, (always_cons.mp hpos).2.1, hall⟩

/-- An lseek to -1 is not refused, and the next read stops the kernel. -/
theorem lseek_negative_stops : Sound emptyOpen ∧
    Step emptyOpen (.lseek (-1) 1) { emptyOpen with fPos := -1 } ∧
      ∀ fuel, syscall (fuel + 1) { emptyOpen with fPos := -1 } (.read 1 cleared fun _ => 0) =
        .error (.assertFailed "pos >= 0 && count >= 0") :=
  ⟨emptyOpen_sound, ⟨0, -1, rfl⟩, fun _ => rfl⟩

end RxdOs.Fs.FileIo
