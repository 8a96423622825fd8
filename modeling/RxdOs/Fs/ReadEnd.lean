/- RxdOs/Fs/ReadEnd
   source: fs/fs.c (sys_read)
   digest: sys_read around any _read that keeps its contract: it returns the bytes up to the end
   of the file exactly from the positions that are not past it, if it finds a page and the lines
   it prints about its pages are shown. -/

import RxdOs.Fs.FileIo

set_option autoImplicit false
set_option relaxedAutoImplicit false

namespace RxdOs.Fs.ReadEnd

open RxdOs.Base.Assert RxdOs.Base.Int32 RxdOs.Fs.Bitmap RxdOs.Fs.Layout RxdOs.Fs.Zone
  RxdOs.Fs.ZoneMap RxdOs.Fs.FileBytes RxdOs.Fs.FileRead RxdOs.Fs.FileWrite RxdOs.Fs.Message
  RxdOs.Fs.FileIo

open RxdOs.Libk.Printk (Screen)
open RxdOs.Libk.Str (Terminated)

/-- _read on one inode: the position, the page and the bytes asked for. -/
abbrev ReadFn := Int → (Nat → UInt8) → Int → Kernel (Int × (Nat → UInt8))

/-- The loop of sys_read around `read`, on a file of `iSize` bytes. -/
def readLoop (read : ReadFn) (iSize : Int) : Nat → Reading → Kernel Reading
  | 0, _ => .error (.fault "while (left > 0)")
  | fuel + 1, s =>
    if s.left > 0 then do
      let (bytes, buffer) ← read s.fPos s.buffer (chunk s.left)
      if bytes > 0 then do
        printed (Transfer.readText ⟨s.fPos, bytes, buffer⟩) (s.screen s.done)
        readLoop read iSize fuel { s with
          buffer := buffer
          usr := fun i =>
            if s.done ≤ i ∧ (i : Int) < s.done + bytes then buffer (i - s.done) else s.usr i
          left := toU32 (s.left - bytes)
          done := s.done + bytes.toNat
          fPos := wrap (s.fPos + bytes) }
      else
        readLoop read iSize fuel { s with
          buffer := buffer
          count := toU32 (s.count - (s.left - (iSize - s.fPos)))
          left := toU32 (iSize - s.fPos) }
    else pure s

/-- sys_read from `fPos` on: what it returns, the user's range and the position after it. -/
def sysReadWith (read : ReadFn) (iSize : Int) (fuel : Nat) (fPos count : Int) (found : Found)
    (usr : Nat → UInt8) : Kernel (Int × (Nat → UInt8) × Int) :=
  withPage found do
    let t ← readLoop read iSize fuel ⟨fPos, count, count, 0, found.page, usr, found.screen⟩
    pure (wrap (t.count - t.left), t.usr, t.fPos)

/-- The loop of the file system is this one around its own _read. -/
theorem sysReadLoop_eq (disk : Disk) (inode : Inode) (fuel : Nat) (t : Reading) :
    sysReadLoop disk inode fuel t = readLoop (Zone.read disk inode) inode.iSize fuel t := by
  induction fuel generalizing t with
  | zero => rfl
  | succ fuel ih =>
    rw [sysReadLoop, readLoop]
    simp only [ih]

theorem sysRead_eq (fuel : Nat) (s : OpenFile) (count : Int) (found : Found) (usr : Nat → UInt8) :
    sysRead fuel s count found usr =
      (sysReadWith (Zone.read s.disk s.inode) s.inode.iSize fuel s.fPos count found usr).map
        fun r => (r.1, r.2.1, { s with fPos := r.2.2 }) := by
  rw [sysRead, sysReadWith, sysReadLoop_eq, withPage_map]
  congr 1
  cases readLoop (Zone.read s.disk s.inode) s.inode.iSize fuel
    ⟨s.fPos, count, count, 0, found.page, usr, found.screen⟩ with
  | error e => rfl
  | ok t => rfl

/-! ## What is asked of _read and of sys_read -/

/-- The buffer of _read after the bytes from `pos` on have been put there. -/
def put (byte : Nat → UInt8) (pos count : Nat) (buf : Nat → UInt8) (i : Nat) : UInt8 :=
  if i < count then byte (pos + i) else buf i

/-- _read returns -1 past the end of the file, else the bytes asked for, and leaves the rest of
its buffer alone. -/
structure Contract (read : ReadFn) (iSize : Int) (byte : Nat → UInt8) : Prop where
  past : ∀ (pos count : Nat) buf, iSize < ((pos + count : Nat) : Int) →
    read pos buf count = .ok (-1, buf)
  inside : ∀ (pos count : Nat) buf, ((pos + count : Nat) : Int) ≤ iSize →
    read pos buf count = .ok (count, put byte pos count buf)

/-- The bytes a read of `count` from `fPos` on has before the end. -/
def readable (iSize fPos count : Int) : Int := min count (max 0 (iSize - fPos))

/-- sys_read ends; it returns these bytes, puts them and nothing else behind usrbuf, and moves
on by them. -/
def Served (read : ReadFn) (iSize : Int) (byte : Nat → UInt8) (fPos count : Int) (found : Found)
    (usr : Nat → UInt8) : Prop :=
  ∃ fuel usr', sysReadWith read iSize fuel fPos count found usr =
      .ok (readable iSize fPos count, usr', fPos + readable iSize fPos count) ∧
    ∀ i : Nat, usr' i =
      if (i : Int) < readable iSize fPos count then byte (fPos.toNat + i) else usr i

/-- The page of round `k` of `r` bytes from `pos` on: behind the bytes of a last round stand those
of the round before it, or what was in the page at first. -/
def pageOf (byte page : Nat → UInt8) (pos r k i : Nat) : UInt8 :=
  if i < min (r - 4096 * k) 4096 then byte (pos + 4096 * k + i)
  else if i < 4096 ∧ 0 < k then byte (pos + 4096 * (k - 1) + i)
  else page i

/-- The lines about these pages are shown. -/
def LinesShown (byte : Nat → UInt8) (pos r : Nat) (page : Nat → UInt8) (screen : Nat → Screen)
    (done : Nat) : Prop :=
  ∀ k, 4096 * k < r → Shown (Transfer.readText ⟨(pos + 4096 * k : Nat),
    (min (r - 4096 * k) 4096 : Nat), pageOf byte page pos r k⟩) (screen (done + 4096 * k))

variable {read : ReadFn} {iSize : Int} {byte : Nat → UInt8}

/-! ## Rounds -/

/-- A round that gets its bytes. -/
theorem readLoop_got {fuel : Nat} {t : Reading} {bytes : Int} {buffer : Nat → UInt8}
    (hleft : 0 < t.left) (hread : read t.fPos t.buffer (chunk t.left) = .ok (bytes, buffer))
    (hbytes : 0 < bytes)
    (hshown : Shown (Transfer.readText ⟨t.fPos, bytes, buffer⟩) (t.screen t.done)) :
    readLoop read iSize (fuel + 1) t =
      readLoop read iSize fuel { t with
        buffer := buffer
        usr := fun i =>
          if t.done ≤ i ∧ (i : Int) < t.done + bytes then buffer (i - t.done) else t.usr i
        left := toU32 (t.left - bytes)
        done := t.done + bytes.toNat
        fPos := wrap (t.fPos + bytes) } := by
  rw [readLoop, if_pos hleft, hread, ok_bind]
  dsimp only
  rw [if_pos hbytes, printed_of_shown hshown, ok_bind]

/-- A round that got its bytes and came back has shown them. -/
theorem readLoop_shown {fuel : Nat} {t t' : Reading} {bytes : Int} {buffer : Nat → UInt8}
    (hleft : 0 < t.left) (hread : read t.fPos t.buffer (chunk t.left) = .ok (bytes, buffer))
    (hbytes : 0 < bytes) (hloop : readLoop read iSize (fuel + 1) t = .ok t') :
    Shown (Transfer.readText ⟨t.fPos, bytes, buffer⟩) (t.screen t.done) := by
  rw [readLoop, if_pos hleft, hread, ok_bind] at hloop
  dsimp only at hloop
  rw [if_pos hbytes, bind_eq_ok] at hloop
  obtain ⟨u, hprint, -⟩ := hloop
  exact printed_eq_ok.mp hprint

/-- A round past the end. -/
theorem readLoop_cut {fuel : Nat} {t : Reading} {buffer : Nat → UInt8} (hleft : 0 < t.left)
    (hread : read t.fPos t.buffer (chunk t.left) = .ok (-1, buffer)) :
    readLoop read iSize (fuel + 1) t =
      readLoop read iSize fuel { t with
        buffer := buffer
        count := toU32 (t.count - (t.left - (iSize - t.fPos)))
        left := toU32 (iSize - t.fPos) } := by
  rw [readLoop, if_pos hleft, hread, ok_bind]
  exact if_neg (by decide)

theorem readLoop_end {fuel : Nat} {t : Reading} (hleft : t.left = 0) :
    readLoop read iSize (fuel + 1) t = .ok t := by
  rw [readLoop, if_neg (by omega)]
  rfl

/-- `r` bytes more than at `t`, and nothing left to read. -/
structure Taken (byte : Nat → UInt8) (t t' : Reading) (r : Nat) : Prop where
  left : t'.left = 0
  count : t'.count = t.done + r
  fPos : t'.fPos = t.fPos + r
  usr : ∀ i, t'.usr i =
    if t.done ≤ i ∧ i < t.done + r then byte (t.fPos.toNat + (i - t.done)) else t.usr i

/-- `n` bytes are left at `pos`, and the rest of the count is behind usrbuf. -/
structure Left (t : Reading) (pos n : Nat) : Prop where
  fPos : t.fPos = pos
  left : t.left = n
  count : t.count = t.done + n
  lt : t.done + n < 2 ^ 31

theorem Left.end {t : Reading} {pos : Nat} (ht : Left t pos 0) : Taken byte t t 0 := by
  refine ⟨ht.left, ht.count, (add_zero _).symm, fun i => ?_⟩
  rw [if_neg (by omega)]

/-- The state after a round that got `b` of the bytes. -/
def got (t : Reading) (b : Nat) (buffer : Nat → UInt8) : Reading :=
  { t with
    buffer := buffer
    usr := fun i =>
      if t.done ≤ i ∧ (i : Int) < t.done + b then buffer (i - t.done) else t.usr i
    left := toU32 (t.left - b)
    done := t.done + (b : Int).toNat
    fPos := wrap (t.fPos + b) }

theorem Left.got {t : Reading} {pos n b : Nat} (ht : Left t pos n) (hb : b ≤ n)
    (hpos : pos + b < 2 ^ 31) (buffer : Nat → UInt8) :
    Left (got t b buffer) (pos + b) (n - b) := by
  have hlt := ht.lt
  constructor
  · show wrap (t.fPos + b) = ((pos + b : Nat) : Int)
    rw [ht.fPos, wrap_of_range (by omega) (by omega)]
    push_cast
    rfl
  · show toU32 (t.left - b) = ((n - b : Nat) : Int)
    rw [ht.left, toU32_of_range (by omega) (by omega)]
    omega
  · show t.count = ((t.done + (b : Int).toNat : Nat) : Int) + (n - b : Nat)
    rw [ht.count, Int.toNat_natCast]
    omega
  · show t.done + (b : Int).toNat + (n - b) < 2 ^ 31
    rw [Int.toNat_natCast]
    omega

/-- What the later rounds take comes after the bytes of this one. -/
theorem Taken.after_got {t t' : Reading} {pos n b r : Nat} {buffer : Nat → UInt8}
    (ht : Left t pos n) (hpos : pos + b < 2 ^ 31) (hbuf : ∀ i < b, buffer i = byte (pos + i))
    (h : Taken byte (got t b buffer) t' r) : Taken byte t t' (b + r) := by
  have hdone : (got t b buffer).done = t.done + b := by
    show t.done + (b : Int).toNat = t.done + b
    rw [Int.toNat_natCast]
  have hfpos : (got t b buffer).fPos = ((pos + b : Nat) : Int) := by
    show wrap (t.fPos + b) = ((pos + b : Nat) : Int)
    rw [ht.fPos, wrap_of_range (by omega) (by omega)]
    push_cast
    rfl
  refine ⟨h.left, ?_, ?_, fun i => ?_⟩
  · rw [h.count, hdone]
    push_cast
    ring
  · rw [h.fPos, hfpos, ht.fPos]
    push_cast
    ring
  · rw [h.usr i, hdone, hfpos, ht.fPos, Int.toNat_natCast, Int.toNat_natCast]
    by_cases hlater : t.done + b ≤ i ∧ i < t.done + b + r
    · rw [if_pos hlater, if_pos (by omega)]
      congr 1
      omega
    · rw [if_neg hlater]
      show (if t.done ≤ i ∧ (i : Int) < t.done + b then buffer (i - t.done) else t.usr i) = _
      by_cases hnow : t.done ≤ i ∧ i < t.done + b
      · rw [if_pos (by omega), if_pos (by omega)]
        exact hbuf (i - t.done) (by omega)
      · rw [if_neg (by omega), if_neg (by omega)]

/-- The first page, and those of the later rounds. -/
theorem linesShown_step {page : Nat → UInt8} {screen : Nat → Screen} {pos r done : Nat}
    (hr : 0 < r) : LinesShown byte pos r page screen done ↔
      Shown (Transfer.readText ⟨pos, (min r 4096 : Nat), put byte pos (min r 4096) page⟩)
        (screen done) ∧
      LinesShown byte (pos + min r 4096) (r - min r 4096) (put byte pos (min r 4096) page) screen
        (done + min r 4096) := by
  have hfirst : pageOf byte page pos r 0 = put byte pos (min r 4096) page := by
    ext i
    simp only [pageOf, put, Nat.mul_zero, Nat.sub_zero, Nat.add_zero, lt_irrefl, and_false,
      if_false]
  have hlater : 4096 < r → ∀ k, pageOf byte page pos r (k + 1) =
      pageOf byte (put byte pos 4096 page) (pos + 4096) (r - 4096) k := by
    intro hlong k
    ext i
    have hrest : r - 4096 - 4096 * k = r - 4096 * (k + 1) := by omega
    have hplace : pos + 4096 + 4096 * k + i = pos + 4096 * (k + 1) + i := by omega
    simp only [pageOf, hrest, hplace, Nat.succ_pos, and_true, Nat.add_sub_cancel]
    split_ifs with hnow hpage hk
    · rfl
    · rw [show pos + 4096 + 4096 * (k - 1) + i = pos + 4096 * k + i by omega]
    · obtain rfl : k = 0 := by omega
      rw [put, if_pos hpage, Nat.mul_zero, Nat.add_zero]
    · omega
    · rw [put, if_neg hpage]
  have hline : 4096 < r → ∀ k, Shown (Transfer.readText ⟨(pos + 4096 * (k + 1) : Nat),
      (min (r - 4096 * (k + 1)) 4096 : Nat), pageOf byte page pos r (k + 1)⟩)
        (screen (done + 4096 * (k + 1))) ↔
      Shown (Transfer.readText ⟨(pos + 4096 + 4096 * k : Nat),
        (min (r - 4096 - 4096 * k) 4096 : Nat),
        pageOf byte (put byte pos 4096 page) (pos + 4096) (r - 4096) k⟩)
        (screen (done + 4096 + 4096 * k)) := by
    intro hlong k
    rw [hlater hlong, show r - 4096 * (k + 1) = r - 4096 - 4096 * k by omega,
      show pos + 4096 * (k + 1) = pos + 4096 + 4096 * k by omega,
      show done + 4096 * (k + 1) = done + 4096 + 4096 * k by omega]
  constructor
  · intro h
    have hzero := h 0 (by omega)
    rw [hfirst] at hzero
    refine ⟨hzero, fun k hk => ?_⟩
    have hmin : min r 4096 = 4096 := by omega
    rw [hmin]
    exact (hline (by omega) k).mp (h (k + 1) (by omega))
  · rintro ⟨hzero, hrest⟩ k hk
    cases k with
    | zero =>
      rw [hfirst]
      exact hzero
    | succ k =>
      have hmin : min r 4096 = 4096 := by omega
      rw [hmin] at hrest
      exact (hline (by omega) k).mpr (hrest k (by omega))

theorem linesShown_none {page : Nat → UInt8} {screen : Nat → Screen} {pos done : Nat} :
    LinesShown byte pos 0 page screen done :=
  fun _ hk => absurd hk (Nat.not_lt_zero _)

/-- A round past the end leaves what is there. -/
theorem Left.cut {size pos n : Nat} {t : Reading} (ht : Left t pos n) (hsize : size < 2 ^ 31)
    (hpos : pos ≤ size) (hn : size - pos ≤ n) : Left { t with
      count := toU32 (t.count - (t.left - ((size : Int) - t.fPos)))
      left := toU32 ((size : Int) - t.fPos) } pos (size - pos) := by
  have hlt := ht.lt
  refine ⟨ht.fPos, ?_, ?_, by show t.done + (size - pos) < 2 ^ 31; omega⟩
  · show toU32 ((size : Int) - t.fPos) = (size - pos : Nat)
    rw [ht.fPos, toU32_of_range (by omega) (by omega)]
    omega
  · show toU32 (t.count - (t.left - ((size : Int) - t.fPos))) = t.done + (size - pos : Nat)
    rw [ht.count, ht.left, ht.fPos, toU32_of_range (by omega) (by omega)]
    omega

section Loop

variable {size pos n : Nat} {t : Reading}

/-- What a round of `n` bytes left gets, inside the file. -/
theorem Left.inside (ht : Left t pos n) (hread : Contract read size byte)
    (hin : pos + min n 4096 ≤ size) : read t.fPos t.buffer (chunk t.left) =
      .ok ((min n 4096 : Nat), put byte pos (min n 4096) t.buffer) := by
  rw [ht.fPos, ht.left, chunk_nat]
  exact hread.inside pos (min n 4096) t.buffer (by exact_mod_cast hin)

theorem Left.past (ht : Left t pos n) (hread : Contract read size byte)
    (hout : size < pos + min n 4096) : read t.fPos t.buffer (chunk t.left) =
      .ok (-1, t.buffer) := by
  rw [ht.fPos, ht.left, chunk_nat]
  exact hread.past pos (min n 4096) t.buffer (by exact_mod_cast hout)

/-- From a position that is not past the end the loop takes what there is, if it can say so. -/
theorem readLoop_taken (hread : Contract read size byte) (hsize : size < 2 ^ 31)
    (ht : Left t pos n) (hpos : pos ≤ size)
    (hlines : LinesShown byte pos (min n (size - pos)) t.buffer t.screen t.done) :
    ∃ fuel t', readLoop read size fuel t = .ok t' ∧ Taken byte t t' (min n (size - pos)) := by
  -- n is what is left: a round takes a chunk of it or cuts it down to the rest of the file
  induction n using Nat.strong_induction_on generalizing pos t with
  | h n ih =>
    have hleft := ht.left
    have hlt := ht.lt
    rcases Nat.eq_zero_or_pos n with rfl | hn
    · refine ⟨1, t, readLoop_end hleft, ?_⟩
      rw [Nat.zero_min]
      exact ht.end
    have hpositive : 0 < t.left := by omega
    by_cases hin : pos + min n 4096 ≤ size
    · have hmin : min (min n (size - pos)) 4096 = min n 4096 := by omega
      rw [linesShown_step (by omega), hmin] at hlines
      obtain ⟨hline, hrest⟩ := hlines
      have hnext := ht.got (min_le_left n 4096) (by omega) (put byte pos (min n 4096) t.buffer)
      have hdone : t.done + min n 4096 = t.done + ((min n 4096 : Nat) : Int).toNat := by
        rw [Int.toNat_natCast]
      have hsub : min n (size - pos) - min n 4096 =
          min (n - min n 4096) (size - (pos + min n 4096)) := by omega
      rw [hdone, hsub] at hrest
      obtain ⟨fuel, t', hrun, htaken⟩ := ih (n - min n 4096) (by omega) hnext hin hrest
      rw [← ht.fPos] at hline
      refine ⟨fuel + 1, t', ?_, ?_⟩
      · rw [readLoop_got hpositive (ht.inside hread hin) (by omega) hline]
        exact hrun
      · have hbytes : ∀ i < min n 4096, put byte pos (min n 4096) t.buffer i = byte (pos + i) :=
          fun i hi => if_pos hi
        have hall := Taken.after_got ht (by omega) hbytes htaken
        rwa [show min n 4096 + min (n - min n 4096) (size - (pos + min n 4096)) =
          min n (size - pos) by omega] at hall
    · have hcut := ht.cut hsize hpos (by omega)
      have hmin : min n (size - pos) = min (size - pos) (size - pos) := by omega
      rw [hmin] at hlines
      obtain ⟨fuel, t', hrun, htaken⟩ := ih (size - pos) (by omega) hcut hpos hlines
      refine ⟨fuel + 1, t', ?_, ?_⟩
      · rw [readLoop_cut hpositive (ht.past hread (by omega))]
        exact hrun
      · rw [hmin]
        exact ⟨htaken.left, htaken.count, htaken.fPos, htaken.usr⟩

/-- A loop that comes to its end has shown all its lines. -/
theorem readLoop_lines (hread : Contract read size byte) (hsize : size < 2 ^ 31)
    (ht : Left t pos n) (hpos : pos ≤ size) {fuel : Nat} {t' : Reading}
    (hloop : readLoop read size fuel t = .ok t') :
    LinesShown byte pos (min n (size - pos)) t.buffer t.screen t.done := by
  induction fuel generalizing pos n t with
  | zero => cases hloop
  | succ fuel ih =>
    have hleft := ht.left
    rcases Nat.eq_zero_or_pos (min n (size - pos)) with hzero | hr
    · rw [hzero]
      exact linesShown_none
    have hpositive : 0 < t.left := by omega
    by_cases hin : pos + min n 4096 ≤ size
    · have hmin : min (min n (size - pos)) 4096 = min n 4096 := by omega
      have hgot := ht.inside hread hin
      have hline := readLoop_shown hpositive hgot (by omega) hloop
      rw [readLoop_got hpositive hgot (by omega) hline] at hloop
      have hnext := ht.got (min_le_left n 4096) (by omega) (put byte pos (min n 4096) t.buffer)
      have hrest := ih hnext hin hloop
      have hdone : t.done + ((min n 4096 : Nat) : Int).toNat = t.done + min n 4096 := by
        rw [Int.toNat_natCast]
      have hsub : min (n - min n 4096) (size - (pos + min n 4096)) =
          min n (size - pos) - min n 4096 := by omega
      rw [ht.fPos] at hline
      rw [linesShown_step hr, hmin]
      refine ⟨hline, ?_⟩
      rw [hsub] at hrest
      rw [← hdone]
      exact hrest
    · rw [readLoop_cut hpositive (ht.past hread (by omega))] at hloop
      have hrest := ih (ht.cut hsize hpos (by omega)) hpos hloop
      rw [min_self] at hrest
      rw [min_eq_right (by omega)]
      exact hrest

end Loop

/-- Past the end every round leaves as much as before, up to 2^32. -/
theorem readLoop_past {size : Nat} (hread : Contract read size byte) {fuel pos : Nat}
    {t t' : Reading} (hpos : t.fPos = pos) (hlt : pos < 2 ^ 31) (hpast : size < pos)
    (hleft : 0 < t.left) : readLoop read size fuel t ≠ .ok t' := by
  induction fuel generalizing t with
  | zero => nofun
  | succ fuel ih =>
    intro h
    obtain ⟨n, hn⟩ := Int.eq_ofNat_of_zero_le hleft.le
    have hchunk : chunk t.left = ((min n 4096 : Nat) : Int) := by
      rw [hn, chunk_nat]
    have hcut := hread.past pos (min n 4096) t.buffer (by push_cast; omega)
    rw [← hpos, ← hchunk] at hcut
    rw [readLoop_cut hleft hcut] at h
    refine ih ?_ ?_ h
    · exact hpos
    · simp only [toU32, hpos]
      omega

/-! ## Calls -/

theorem left_start (pos n : Nat) (hn : n < 2 ^ 31) (found : Found) (usr : Nat → UInt8) :
    Left ⟨pos, n, n, 0, found.page, usr, found.screen⟩ pos n :=
  ⟨rfl, rfl, by rw [Nat.cast_zero, zero_add], by show 0 + n < 2 ^ 31; omega⟩

theorem readable_nat (size pos n : Nat) : readable size pos n = (min n (size - pos) : Nat) := by
  simp only [readable]
  omega

/-- The lines about the bytes that sys_read returns are shown. -/
def Told (iSize : Int) (byte : Nat → UInt8) (fPos count : Int) (found : Found) : Prop :=
  LinesShown byte fPos.toNat (readable iSize fPos count).toNat found.page found.screen 0

theorem served_of_le (hread : Contract read iSize byte) {fPos count : Int} (hsize : Position iSize)
    (hpos : Position fPos) (hcount : Position count) {found : Found} (hpaged : found.Paged)
    (h : count = 0 ∨ fPos ≤ iSize ∧ Told iSize byte fPos count found) (usr : Nat → UInt8) :
    Served read iSize byte fPos count found usr := by
  obtain ⟨size, rfl⟩ := Int.eq_ofNat_of_zero_le hsize.1
  obtain ⟨pos, rfl⟩ := Int.eq_ofNat_of_zero_le hpos.1
  obtain ⟨n, rfl⟩ := Int.eq_ofNat_of_zero_le hcount.1
  have hsizelt := hsize.2
  have hcountlt := hcount.2
  have hstart := left_start pos n (by omega) found usr
  have hreadable := readable_nat size pos n
  obtain ⟨fuel, t', hrun, htaken⟩ : ∃ fuel t', readLoop read size fuel
      ⟨pos, n, n, 0, found.page, usr, found.screen⟩ = .ok t' ∧
        Taken byte ⟨pos, n, n, 0, found.page, usr, found.screen⟩ t' (min n (size - pos)) := by
    rcases h with hzero | ⟨hle, htold⟩
    · obtain rfl : n = 0 := by omega
      refine ⟨1, _, readLoop_end rfl, ?_⟩
      rw [Nat.zero_min]
      exact hstart.end
    · rw [Told, hreadable, Int.toNat_natCast, Int.toNat_natCast] at htold
      exact readLoop_taken hread (by omega) hstart (by omega) htold
  refine ⟨fuel, t'.usr, ?_, fun i => ?_⟩
  · rw [sysReadWith, withPage_of hpaged, hrun, ok_bind, htaken.left, htaken.count, htaken.fPos,
      hreadable]
    simp only [Nat.cast_zero, zero_add, sub_zero]
    rw [wrap_of_range (by omega) (by omega)]
    rfl
  · rw [htaken.usr i, hreadable]
    simp only [zero_le, zero_add, true_and, Nat.sub_zero, Nat.cast_lt]

/-- A read that is served from inside the file has shown its lines. -/
theorem told_of_served (hread : Contract read iSize byte) {fPos count : Int}
    (hsize : Position iSize) (hpos : Position fPos) (hcount : Position count) (hle : fPos ≤ iSize)
    {found : Found} {usr : Nat → UInt8} (h : Served read iSize byte fPos count found usr) :
    Told iSize byte fPos count found := by
  obtain ⟨size, rfl⟩ := Int.eq_ofNat_of_zero_le hsize.1
  obtain ⟨pos, rfl⟩ := Int.eq_ofNat_of_zero_le hpos.1
  obtain ⟨n, rfl⟩ := Int.eq_ofNat_of_zero_le hcount.1
  have hsizelt := hsize.2
  have hcountlt := hcount.2
  obtain ⟨fuel, usr', hrun, -⟩ := h
  rw [sysReadWith, withPage_eq_ok] at hrun
  obtain ⟨t', hloop, -⟩ := bind_eq_ok.mp hrun.2
  rw [Told, readable_nat, Int.toNat_natCast, Int.toNat_natCast]
  have hlines := readLoop_lines hread (by omega) (left_start pos n (by omega) found usr) (by omega) hloop
  exact hlines

theorem not_served_past (hread : Contract read iSize byte) {fPos count : Int}
    (hsize : Position iSize) (hpos : Position fPos) (hcount : 0 < count) (hpast : iSize < fPos)
    (found : Found) (usr : Nat → UInt8) : ¬Served read iSize byte fPos count found usr := by
  obtain ⟨size, rfl⟩ := Int.eq_ofNat_of_zero_le hsize.1
  obtain ⟨pos, rfl⟩ := Int.eq_ofNat_of_zero_le hpos.1
  have hposlt := hpos.2
  rintro ⟨fuel, usr', hrun, -⟩
  rw [sysReadWith, withPage_eq_ok] at hrun
  obtain ⟨t', hloop, -⟩ := bind_eq_ok.mp hrun.2
  exact readLoop_past hread rfl (by omega) (by omega) hcount hloop

/-- sys_read returns the bytes up to the end of the file exactly when it finds a page, and the
position is not past that end and the lines about the pages are shown, or nothing is asked for. -/
theorem served_iff (hread : Contract read iSize byte) {fPos count : Int} (hsize : Position iSize)
    (hpos : Position fPos) (hcount : Position count) (found : Found) (usr : Nat → UInt8) :
    Served read iSize byte fPos count found usr ↔
      found.Paged ∧ (count = 0 ∨ fPos ≤ iSize ∧ Told iSize byte fPos count found) := by
  refine ⟨fun h => ?_, fun h => served_of_le hread hsize hpos hcount h.1 h.2 usr⟩
  have hpaged : found.Paged := by
    obtain ⟨fuel, usr', hrun, -⟩ := h
    exact (withPage_eq_ok.mp hrun).1
  refine ⟨hpaged, ?_⟩
  rcases eq_or_ne count 0 with hzero | hne
  · exact .inl hzero
  have hle : fPos ≤ iSize := by
    by_contra hpast
    have hcount0 := hcount.1
    exact not_served_past hread hsize hpos (by omega) (not_le.mp hpast) found usr h
  exact .inr ⟨hle, told_of_served hread hsize hpos hcount hle h⟩

/-- A _read that keeps the contract. -/
def heldRead (iSize : Int) (byte : Nat → UInt8) : ReadFn := fun pos buf count =>
  if pos + count > iSize then .ok (-1, buf)
  else .ok (count, put byte pos.toNat count.toNat buf)

theorem heldRead_contract (iSize : Int) (byte : Nat → UInt8) :
    Contract (heldRead iSize byte) iSize byte := by
  constructor
  · intro pos count buf h
    push_cast at h
    exact if_pos h
  · intro pos count buf h
    push_cast at h
    exact if_neg (not_lt.mpr h)

/-- Two bytes are asked for at the last of three. -/
theorem served_last_byte : Served (heldRead 3 fun i => UInt8.ofNat i) 3 (fun i => UInt8.ofNat i)
    2 2 cleared fun _ => 0 := by
  refine (served_iff (heldRead_contract 3 _) ⟨by decide, by decide⟩ ⟨by decide, by decide⟩
    ⟨by decide, by decide⟩ _ _).mpr ⟨cleared_paged, .inr ⟨by decide, fun k hk => ?_⟩⟩
  have hk' : 4096 * k < 1 := hk
  obtain rfl : k = 0 := by omega
  have hpage : Terminated (pageOf (fun i => UInt8.ofNat i) cleared.page 2 1 0) 0 1 := by
    refine ⟨fun i hi => ?_, rfl⟩
    obtain rfl : i = 0 := Nat.lt_one_iff.mp hi
    decide
  exact readText_shown hpage (by decide) _ _

/-- One byte past the end of an empty file: lseek goes there, and neither sys_read around a
_read that keeps its contract nor the one of the file system returns. -/
theorem read_past_end_spins : Step emptyOpen (.lseek 1 1) { emptyOpen with fPos := 1 } ∧
    ¬Served (heldRead 0 fun _ => 0) 0 (fun _ => 0) 1 1 cleared (fun _ => 0) ∧
      ∀ fuel r, sysRead fuel { emptyOpen with fPos := 1 } 1 cleared (fun _ => 0) ≠ .ok r := by
  refine ⟨⟨0, 1, rfl⟩, ?_, fun fuel r h => ?_⟩
  · exact not_served_past (heldRead_contract 0 _) ⟨by decide, by decide⟩
      ⟨by decide, by decide⟩ (by decide) (by decide) _ _
  · rw [sysRead, withPage_eq_ok] at h
    obtain ⟨t, hloop, -⟩ := bind_eq_ok.mp h.2
    exact @sysReadLoop_past emptyDisk emptyFile (by decide) fuel 1 _ t rfl (by decide)
      (by decide) (by decide) hloop

end RxdOs.Fs.ReadEnd
