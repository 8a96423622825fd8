/- RxdOs/Fs/FileRead
   source: fs/fs.c (_read)
   digest: Reads of any length against the bytes of the file: the first block, and what the
   loop over the later ones makes of the bytes left. -/

import RxdOs.Fs.FileBytes

set_option autoImplicit false
set_option relaxedAutoImplicit false

namespace RxdOs.Fs.FileRead

open RxdOs.Base.Assert RxdOs.Base.Int32 RxdOs.Fs.Bitmap RxdOs.Fs.Layout RxdOs.Fs.Zone
  RxdOs.Fs.ZoneMap RxdOs.Fs.FileBytes

/-- "this file contains no hole": the zones up to the size are taken, distinct data blocks. -/
structure Owned (disk : Disk) (inode : Inode) : Prop where
  nonneg : 0 ≤ inode.iSize
  le : inode.iSize ≤ maxSize
  taken : ∀ k : Fin 9, (k : Int) < zonesOf inode.iSize → ZoneBit disk (inode.iZone k) ∧
    super.sDataStart ≤ inode.iZone k ∧ inode.iZone k < sectorBits
  inj : ∀ k l : Fin 9, (k : Int) < zonesOf inode.iSize → (l : Int) < zonesOf inode.iSize →
    inode.iZone k = inode.iZone l → k = l

/-- And the last of them is zero past the size. -/
structure NoHole (disk : Disk) (inode : Inode) : Prop extends Owned disk inode where
  tail : ∀ x : Nat, inode.iSize ≤ x → (x : Int) < 1024 * zonesOf inode.iSize →
    fileByte disk inode x = 0

/-- What the first block takes of a transfer. -/
def firstBytes (pos count : Nat) : Nat := min count (1024 - pos % 1024)

/-- What is left for the loop. -/
def restBytes (pos count : Nat) : Nat := count - firstBytes pos count

variable {disk : Disk} {inode : Inode} {pos count : Nat}

/-! ## The loop -/

theorem nextBytes_of_le {left : Nat} (h : left ≤ 1024) : nextBytes left = left :=
  if_neg (Nat.not_lt.mpr h)

theorem nextBytes_of_gt {left : Nat} (h : 1024 < left) : nextBytes left = left % 1024 :=
  if_pos h

/-- A round of _read's loop that finds its zone. -/
theorem readLoop_round {fuel : Nat} {zone : Int} {done left blk : Nat} {buf : Nat → UInt8}
    (hleft : 0 < left) (hget : getZoneBlk inode zone = .ok blk) :
    readLoop disk inode (fuel + 1) zone done left buf =
      readLoop disk inode fuel (zone + 1) (done + nextBytes left) (left - nextBytes left) fun i =>
        if done ≤ i ∧ i < done + nextBytes left then byteAt (disk blk) (i - done) else buf i := by
  rw [readLoop, if_pos hleft, hget]
  rfl

theorem readLoop_done {fuel : Nat} {zone : Int} {done : Nat} {buf : Nat → UInt8} :
    readLoop disk inode (fuel + 1) zone done 0 buf = .ok buf := by
  rw [readLoop, if_neg (lt_irrefl 0)]
  rfl

/-- Two blocks or more, and nothing over: no round takes a byte. -/
theorem readLoop_stuck {fuel : Nat} {zone : Int} {done left : Nat} {buf : Nat → UInt8}
    (hleft : 1024 < left) (hmod : left % 1024 = 0) (r : Nat → UInt8) :
    readLoop disk inode fuel zone done left buf ≠ .ok r := by
  induction fuel generalizing zone done buf with
  | zero =>
    intro h
    cases h
  | succ fuel ih =>
    cases hget : getZoneBlk inode zone with
    | error e =>
      rw [readLoop, if_pos (by omega), hget]
      intro h
      cases h
    | ok blk =>
      have hbytes : nextBytes left = 0 := (nextBytes_of_gt hleft).trans hmod
      rw [readLoop_round (by omega) hget, hbytes, Nat.sub_zero]
      exact ih

/-- The first round takes what is over; two blocks or more are then left for ever. -/
theorem readLoop_long {fuel : Nat} {zone : Int} {done left : Nat} {buf : Nat → UInt8}
    (hleft : 2048 ≤ left) (r : Nat → UInt8) :
    readLoop disk inode fuel zone done left buf ≠ .ok r := by
  cases fuel with
  | zero =>
    intro h
    cases h
  | succ fuel =>
    cases hget : getZoneBlk inode zone with
    | error e =>
      rw [readLoop, if_pos (by omega), hget]
      intro h
      cases h
    | ok blk =>
      rw [readLoop_round (by omega) hget, nextBytes_of_gt (by omega)]
      exact readLoop_stuck (by omega) (by omega) r

/-- No round gets past zone 6, so eight are enough. -/
theorem readLoop_stable {fuel : Nat} (hpos : 1 ≤ fuel) {zone : Int} (hzone : 8 ≤ zone + fuel)
    (done left : Nat) (buf : Nat → UInt8) :
    readLoop disk inode (fuel + 1) zone done left buf =
      readLoop disk inode fuel zone done left buf := by
  induction fuel generalizing zone done left buf with
  | zero => omega
  | succ fuel ih =>
    rw [readLoop]
    conv_rhs => rw [readLoop]
    split_ifs with hleft
    · cases hget : getZoneBlk inode zone with
      | error e => rfl
      | ok blk =>
        obtain ⟨-, h6, -⟩ := getZoneBlk_ok hget
        exact ih (by omega) (by push_cast at hzone; omega) _ _ _
    · rfl

/-! ## The whole read -/

/-- Byte `i` of what a read leaves in its buffer: after the first block, more than one and less
than two blocks are taken in the wrong order, the rest first. -/
def gathered (disk : Disk) (inode : Inode) (pos count i : Nat) : UInt8 :=
  if restBytes pos count ≤ 1024 ∨ i < firstBytes pos count + (restBytes pos count - 1024) then
    fileByte disk inode (pos + i)
  else fileByte disk inode (pos + i + (2048 - restBytes pos count))

/-- The first block of a read that is not past the end. -/
theorem read_first (hend : wrap (pos + count) ≤ inode.iSize) (buf : Nat → UInt8) :
    read disk inode pos buf count = (do
      let blk ← getZoneBlk inode (pos / 1024)
      let buf ← readLoop disk inode 8 (pos / 1024 + 1) (firstBytes pos count) (restBytes pos count)
        fun i => if i < firstBytes pos count then byteAt (disk blk) (pos % 1024 + i) else buf i
      pure ((count : Int), buf)) := by
  have hargs : (pos : Int) ≥ 0 ∧ (count : Int) ≥ 0 := ⟨by omega, by omega⟩
  have hoff : ((pos : Int) % 1024).toNat = pos % 1024 := by omega
  rw [Zone.read, assert_pos hargs, ok_bind, if_neg (not_lt.mpr hend)]
  simp only [hoff, Int.toNat_natCast]
  rfl

theorem first_add_rest (pos count : Nat) : firstBytes pos count + restBytes pos count = count := by
  simp only [restBytes, firstBytes]
  omega

/-- The loop starts at the front of the next zone. -/
theorem next_zone (hrest : 0 < restBytes pos count) :
    pos + firstBytes pos count = 1024 * (pos / 1024 + 1) := by
  simp only [restBytes, firstBytes] at hrest ⊢
  omega

theorem fileByte_zone {zone off : Nat} (hoff : off < 1024) :
    fileByte disk inode (1024 * zone + off) =
      byteAt (disk (inode.iZone (Fin.ofNat 9 zone))) off := by
  have hdiv : (1024 * zone + off) / 1024 = zone := by omega
  have hmod : (1024 * zone + off) % 1024 = off := by omega
  rw [fileByte, hdiv, hmod]

theorem getZoneBlk_zone {zone : Nat} (hz : (1024 * zone : Int) < inode.iSize)
    (hs : inode.iSize ≤ maxSize) :
    getZoneBlk inode zone = .ok (inode.iZone (Fin.ofNat 9 zone)) := by
  have hdiv : (1024 * zone) / 1024 = zone := by omega
  have hdiv' : ((1024 * zone : Nat) : Int) / 1024 = zone := by omega
  rw [← hdiv', getZoneBlk_of_lt (by push_cast; exact hz) hs, hdiv]

theorem read_result {f g : Nat → UInt8} (h : ∀ i, f i = g i) :
    (.ok ((count : Int), f) : Kernel (Int × (Nat → UInt8))) = .ok (count, g) := by
  rw [funext h]

/-- A range inside the file with less than two blocks after its first. -/
theorem read_eq (hs : inode.iSize ≤ maxSize) (hcount : 0 < count)
    (hend : ((pos + count : Nat) : Int) ≤ inode.iSize) (hrest : restBytes pos count < 2048)
    (buf : Nat → UInt8) : read disk inode pos buf count =
      .ok (count, fun i => if i < count then gathered disk inode pos count i else buf i) := by
  have hmax : ((pos + count : Nat) : Int) ≤ maxSize := hend.trans hs
  simp only [maxSize] at hmax
  have hwrap : wrap (pos + count) = pos + count := wrap_of_range (by omega) (by omega)
  have hblk := @getZoneBlk_of_lt inode pos (by omega) hs
  rw [read_first (by rw [hwrap]; push_cast at hend; exact hend), hblk, ok_bind]
  have hsplit := first_add_rest pos count
  have hfirst : firstBytes pos count ≤ 1024 - pos % 1024 := min_le_right _ _
  -- the first block
  have hhead : ∀ i < firstBytes pos count,
      byteAt (disk (inode.iZone (Fin.ofNat 9 (pos / 1024)))) (pos % 1024 + i) =
        fileByte disk inode (pos + i) := by
    intro i hi
    have hat : pos + i = 1024 * (pos / 1024) + (pos % 1024 + i) := by omega
    rw [hat, fileByte_zone (by omega)]
  rcases Nat.eq_zero_or_pos (restBytes pos count) with hzero | hpos
  · rw [hzero, readLoop_done, ok_bind, pure_eq_ok]
    refine read_result fun i => ?_
    have hiff : i < firstBytes pos count ↔ i < count := by omega
    simp only [hiff]
    split_ifs with hi
    · rw [hhead i (by omega), gathered, if_pos (.inl (by omega))]
    · rfl
  have hzone := next_zone hpos
  have hget₁ := @getZoneBlk_zone inode (pos / 1024 + 1) (by omega) hs
  push_cast at hget₁
  rcases Nat.lt_or_ge 1024 (restBytes pos count) with hlong | hshort
  · have hget₂ := @getZoneBlk_zone inode (pos / 1024 + 2) (by omega) hs
    push_cast at hget₂
    have hround : restBytes pos count - (restBytes pos count) % 1024 = 1024 := by omega
    rw [readLoop_round hpos hget₁, nextBytes_of_gt hlong, hround,
      readLoop_round (by omega) (by rw [add_assoc]; exact hget₂), nextBytes_of_le le_rfl, Nat.sub_self,
      readLoop_done, ok_bind, pure_eq_ok]
    refine read_result fun i => ?_
    have hover : restBytes pos count % 1024 = restBytes pos count - 1024 := by omega
    rw [hover]
    by_cases hi : i < firstBytes pos count
    · rw [if_neg (by omega), if_neg (by omega), if_pos hi, if_pos (by omega), hhead i hi, gathered,
        if_pos (.inr (by omega))]
    by_cases hover : i < firstBytes pos count + (restBytes pos count - 1024)
    · have hat : pos + i = 1024 * (pos / 1024 + 1) + (i - firstBytes pos count) := by omega
      rw [if_neg (by omega), if_pos (by omega), if_pos (by omega), gathered,
        if_pos (.inr hover), hat, fileByte_zone (by omega)]
    by_cases hic : i < count
    · have hat : pos + i + (2048 - restBytes pos count) = 1024 * (pos / 1024 + 2) +
          (i - (firstBytes pos count + (restBytes pos count - 1024))) := by omega
      have hlate : ¬(restBytes pos count ≤ 1024 ∨
          i < firstBytes pos count + (restBytes pos count - 1024)) := by omega
      rw [if_pos (by omega), if_pos hic, gathered, if_neg hlate, hat, fileByte_zone (by omega)]
    · rw [if_neg (by omega), if_neg (by omega), if_neg hi, if_neg hic]
  · rw [readLoop_round hpos hget₁, nextBytes_of_le hshort, Nat.sub_self, readLoop_done, ok_bind,
      pure_eq_ok]
    refine read_result fun i => ?_
    by_cases hi : i < firstBytes pos count
    · rw [if_neg (by omega), if_pos hi, if_pos (by omega), hhead i hi, gathered,
        if_pos (.inl hshort)]
    · by_cases hic : i < count
      · have hat : pos + i = 1024 * (pos / 1024 + 1) + (i - firstBytes pos count) := by omega
        rw [if_pos (by omega), if_pos hic, gathered, if_pos (.inl hshort), hat,
          fileByte_zone (by omega)]
      · rw [if_neg (by omega), if_neg hi, if_neg hic]

/-- Two blocks or more after the first: the loop runs into the end of the zones. -/
theorem read_long (hend : wrap (pos + count) ≤ inode.iSize) (hrest : 2048 ≤ restBytes pos count)
    (buf : Nat → UInt8) (r : Int × (Nat → UInt8)) : read disk inode pos buf count ≠ .ok r := by
  intro hread
  simp only [read_first hend, bind_eq_ok] at hread
  obtain ⟨_, -, _, hloop, -⟩ := hread
  exact readLoop_long hrest _ hloop

/-- A first block past zone 6 is nowhere. -/
theorem read_far (hend : wrap (pos + count) ≤ inode.iSize) (hpos : maxSize ≤ pos)
    (buf : Nat → UInt8) (r : Int × (Nat → UInt8)) : read disk inode pos buf count ≠ .ok r := by
  intro hread
  simp only [read_first hend, bind_eq_ok] at hread
  obtain ⟨_, hget, -⟩ := hread
  obtain ⟨-, h6, -⟩ := getZoneBlk_ok hget
  simp only [maxSize] at hpos
  omega

/-- Sums that do not fit an int get past the test for the end of the file, and stop later. -/
theorem read_overflow (hs0 : 0 ≤ inode.iSize) (hpos : pos < 2 ^ 31) (hcount : count < 2 ^ 31)
    (hsum : 2 ^ 31 ≤ pos + count) (buf : Nat → UInt8) (r : Int × (Nat → UInt8)) :
    read disk inode pos buf count ≠ .ok r := by
  have hwrap : wrap (pos + count) ≤ inode.iSize := by
    simp only [wrap]
    omega
  by_cases hfar : (pos : Int) < maxSize
  · simp only [maxSize] at hfar
    refine read_long hwrap ?_ buf r
    simp only [restBytes, firstBytes]
    omega
  · exact read_far hwrap (not_lt.mp hfar) buf r

/-! ## What a read should do -/

/-- -1 and nothing touched past the end of the file, else the bytes of the range. -/
def ReadsContent (disk : Disk) (inode : Inode) (pos : Nat) (buf : Nat → UInt8) (count : Nat) : Prop :=
  read disk inode pos buf count =
    if inode.iSize < ((pos + count : Nat) : Int) then .ok (-1, buf)
    else .ok (count, fun i => if i < count then fileByte disk inode (pos + i) else buf i)

/-- From the last `1024` bytes of the range on, the file happens to repeat itself. -/
def Repeats (disk : Disk) (inode : Inode) (pos count : Nat) : Prop :=
  ∀ i, count - 1024 ≤ i → i < count →
    fileByte disk inode (pos + i + (2048 - restBytes pos count)) = fileByte disk inode (pos + i)

/-- Past the end, or at most a block after the first; with more than one and less than two the
bytes must agree by accident. -/
def Served (disk : Disk) (inode : Inode) (pos count : Nat) : Prop :=
  pos + count < 2 ^ 31 ∧ (inode.iSize < ((pos + count : Nat) : Int) ∨ restBytes pos count ≤ 1024 ∨
    restBytes pos count < 2048 ∧ Repeats disk inode pos count)

theorem gathered_eq_iff (hrest : 1024 < restBytes pos count) :
    (∀ i < count, gathered disk inode pos count i = fileByte disk inode (pos + i)) ↔
      Repeats disk inode pos count := by
  have hsplit := first_add_rest pos count
  have hlate : ∀ i, count - 1024 ≤ i → i < count →
      ¬(restBytes pos count ≤ 1024 ∨ i < firstBytes pos count + (restBytes pos count - 1024)) := by
    intro i hi hic
    omega
  constructor
  · intro hall i hi hic
    have heq := hall i hic
    rwa [gathered, if_neg (hlate i hi hic)] at heq
  · intro hrep i hic
    rw [gathered]
    split_ifs with hearly
    · rfl
    · exact hrep i (by omega) hic

/-- _read returns the bytes of the file exactly for the ranges it serves. -/
theorem read_content_iff (hno : NoHole disk inode) (hpos : pos < 2 ^ 31) (hcount : 0 < count)
    (hcount' : count < 2 ^ 31) (buf : Nat → UInt8) :
    ReadsContent disk inode pos buf count ↔ Served disk inode pos count := by
  unfold ReadsContent Served
  by_cases hsum : pos + count < 2 ^ 31
  · by_cases hpast : inode.iSize < ((pos + count : Nat) : Int)
    · rw [if_pos hpast, read_past hpast hsum]
      exact ⟨fun _ => ⟨hsum, .inl hpast⟩, fun _ => rfl⟩
    rw [if_neg hpast]
    have hend : ((pos + count : Nat) : Int) ≤ inode.iSize := not_lt.mp hpast
    rcases Nat.lt_or_ge (restBytes pos count) 2048 with hshort | hlong
    · rw [read_eq hno.le hcount hend hshort]
      have hres : (.ok ((count : Int), fun i => if i < count then gathered disk inode pos count i
            else buf i) : Kernel (Int × (Nat → UInt8))) =
          .ok (count, fun i => if i < count then fileByte disk inode (pos + i) else buf i) ↔
          ∀ i < count, gathered disk inode pos count i = fileByte disk inode (pos + i) := by
        constructor
        · intro heq i hi
          have hfun := congrFun (Prod.mk.inj (Except.ok.inj heq)).2 i
          rwa [if_pos hi, if_pos hi] at hfun
        · intro hall
          refine read_result fun i => ?_
          split_ifs with hi
          · exact hall i hi
          · rfl
      rw [hres]
      rcases Nat.lt_or_ge 1024 (restBytes pos count) with htwo | hone
      · rw [gathered_eq_iff htwo]
        constructor
        · intro hrep
          exact ⟨hsum, .inr (.inr ⟨hshort, hrep⟩)⟩
        · rintro ⟨-, hp | hle | ⟨-, hrep⟩⟩
          · exact absurd hp hpast
          · omega
          · exact hrep
      · refine ⟨fun _ => ⟨hsum, .inr (.inl hone)⟩, fun _ i _ => ?_⟩
        rw [gathered, if_pos (.inl hone)]
    · have hwrap : wrap (pos + count) = pos + count := wrap_of_range (by omega) (by omega)
      have hend' : wrap (pos + count) ≤ inode.iSize := by
        rw [hwrap]
        push_cast at hend
        exact hend
      refine ⟨fun hread => absurd hread (read_long hend' hlong buf _), ?_⟩
      rintro ⟨-, hp | hle | ⟨hlt, -⟩⟩
      · exact absurd hp hpast
      · omega
      · omega
  · refine ⟨fun hread => ?_, fun h => absurd h.1 hsum⟩
    have hstop := @read_overflow disk inode pos count hno.nonneg hpos hcount' (not_lt.mp hsum) buf
    split_ifs at hread
    · exact absurd hread (hstop _)
    · exact absurd hread (hstop _)

/-- Three whole blocks in zones 10 to 12 of a full disk. -/
def threeBlocks : Inode where
  iInum := 1
  iSize := 3072
  iMode := 0
  iNlink := 1
  iZone k := 10 + k
  iRefcnt := 1

def fullDisk : Disk := fun _ _ => 0xff

theorem threeBlocks_noHole : NoHole fullDisk threeBlocks where
  nonneg := by decide
  le := by decide
  taken k hk := by
    have hzones : zonesOf threeBlocks.iSize = 3 := by decide
    rw [hzones] at hk
    have hall : ∀ b < 13, ZoneBit fullDisk b := by
      intro b hb
      have hbyte : ∀ k < 13, BitAt (fun _ => 0xff) k := by decide
      have hmap := hbyte b hb
      rw [ZoneBit, MapBit, Nat.div_eq_of_lt (by simp only [sectorBits]; omega),
        Nat.mod_eq_of_lt (by simp only [sectorBits]; omega)]
      exact hmap
    have hval : threeBlocks.iZone k = 10 + k := rfl
    simp only [hval, super, sectorBits]
    exact ⟨hall _ (by omega), by omega, by omega⟩
  inj k l _ _ heq := by
    have hval : ∀ k : Fin 9, threeBlocks.iZone k = 10 + k := fun _ => rfl
    rw [hval, hval] at heq
    exact Fin.ext (by omega)
  tail x hx hlt := by
    have hzones : zonesOf threeBlocks.iSize = 3 := by decide
    have hsize : threeBlocks.iSize = 3072 := rfl
    omega

theorem read_content_two_blocks : ReadsContent fullDisk threeBlocks 1000 (fun _ => 0) 1000 :=
  (read_content_iff threeBlocks_noHole (by decide) (by decide) (by decide) _).mpr
    ⟨by decide, .inr (.inl (by decide))⟩

/-- Reading the three blocks in one call stops the kernel. -/
theorem read_three_blocks_stops : NoHole fullDisk threeBlocks ∧
    ¬ReadsContent fullDisk threeBlocks 0 (fun _ => 0) 3072 := by
  refine ⟨threeBlocks_noHole, fun hread => ?_⟩
  refine @read_long fullDisk threeBlocks 0 3072 ?_ ?_ (fun _ => 0) _ hread
  · decide
  · decide

end RxdOs.Fs.FileRead
