/- RxdOs/Fs/PowerLoss
   source: fs/fs.c (sys_write, _write, _reserve_zone, _get_blk, write_inode)
   digest: sys_write cut off between any two block visits: what the drive holds then, and what a
   restart finds on it. -/

import RxdOs.Fs.CachedFiles

set_option autoImplicit false
set_option relaxedAutoImplicit false

namespace RxdOs.Fs.PowerLoss

open RxdOs.Base.Assert RxdOs.Base.Int32 RxdOs.Lib.Execution RxdOs.Lib.BlockPrograms
  RxdOs.Lib.NamedFiles RxdOs.Blk.Request RxdOs.Blk.Buffer RxdOs.Blk.BlockVisits RxdOs.Fs.Bitmap
  RxdOs.Fs.Layout RxdOs.Fs.Zone RxdOs.Fs.ZoneMap RxdOs.Fs.FileBytes RxdOs.Fs.FileRead
  RxdOs.Fs.FileWrite RxdOs.Fs.InodeRecord RxdOs.Fs.InodeRegion RxdOs.Fs.InodeTable
  RxdOs.Fs.Directory RxdOs.Fs.RootDirectory RxdOs.Fs.FileBodies RxdOs.Fs.BlockFunctions
open RxdOs.Fs.Dir (write_same)
open RxdOs.Fs.DentryCache (FsState nrMaxOpen deref_eq_ok)
open RxdOs.Fs.FileStore (Good OpenAt behindFile behindFile_eq Usable Plain Act store_names
  store_body)
open RxdOs.Fs.Open (rootPath plainEnv blankMemory)
open RxdOs.Fs.UserPaths (polite_a)
open RxdOs.Fs.Persistence (CanOpen)
open RxdOs.Fs.BlockCalls (withDisk sysOpen sysWrite fsInit run_fsInit)
open RxdOs.Fs.CachedFiles (Drive Machine Runs powered quiet_powered shown_powered view_disk cold
  through usable_zero)
open RxdOs.Blk.BufferCoherence (Exact plainHd plainHd_exact)

open RxdOs.Fs.Message (Found cleared)

variable {disk disk' d : Disk} {inode inode' : Inode} {n pos count : Nat} {ptrs : Pointers}

/-! ## Blocks are taken -/

section Growing

/-- What is on the disk while blocks are taken: those that were taken stay as they are. -/
structure Grows (disk d : Disk) : Prop where
  kept : Kept disk d
  bits : ∀ b < sectorBits, ZoneBit disk b → ZoneBit d b

theorem Grows.refl (disk : Disk) : Grows disk disk := ⟨fun _ _ _ _ => rfl, fun _ _ h => h⟩

theorem Grows.trans (h : Grows disk d) (h' : Grows d disk') : Grows disk disk' := by
  refine ⟨fun b hb hb3 hbit => ?_, fun b hb hbit => h'.bits b hb (h.bits b hb hbit)⟩
  rw [h'.kept b hb hb3 (h.bits b hb hbit), h.kept b hb hb3 hbit]

theorem Grows.reserved (h : Grows disk d) (hmeta : Reserved disk) : Reserved d :=
  fun b hb => h.bits b (hb.trans (by decide)) (hmeta b hb)

/-- _get_blk takes a block that was free. -/
theorem Grows.getBlk (hmeta : Reserved disk) {b : Nat} (h : Zone.getBlk disk = .ok (b, d)) :
    Grows disk d := by
  obtain ⟨-, -, hfree, -, hbits, hother⟩ := getBlk_spec hmeta h
  refine ⟨fun k hk hk3 hbit => hother k hk3 ?_, fun k hk hbit => (hbits k hk).mpr (.inr hbit)⟩
  intro heq
  exact hfree (heq ▸ hbit)

/-- Between its two visits the block is taken, and not yet zeroed. -/
theorem Grows.mark {k : Nat} (hk : k < sectorBits) :
    Grows disk (Function.update disk super.sZmapStart (setBit (disk super.sZmapStart) k)) := by
  refine ⟨fun b _ hb3 _ => Function.update_of_ne hb3 .., fun b _ hbit => ?_⟩
  exact (zoneBit_setBit hk).mpr (.inr hbit)

/-- The map is changed once, in the visit that finds a clear bit. -/
theorem bitmapAlloc_commits {K : Disk → Prop} (hd : K d) (m start bit : Nat) :
    (Blocks.bitmapAlloc m start bit).Commits plain K d := by
  induction m generalizing start bit with
  | zero => exact (Prog.keeps_fail.mpr hd).commits
  | succ m ih =>
    refine Prog.commits_visit hd ?_
    intro data d' hserve
    obtain ⟨rfl, rfl⟩ := Prod.mk.inj (Except.ok.inj hserve)
    dsimp only [putAt]
    cases hfind : findFirstZero (d start) sectorSize with
    | some tmp => exact Prog.commits_done _
    | none => exact ih _ _

theorem getBlk_keeps (hmeta : Reserved d) (h : Grows disk d) :
    Blocks.getBlk.Keeps plain (Grows disk) d := by
  have halloc : (Blocks.bitmapAlloc super.sZmapCount super.sZmapStart 0).Keeps plain
      (Grows disk) d := by
    refine (bitmapAlloc_commits h _ _ _).keeps ?_
    intro b t hrun
    rw [Blocks.run_bitmapAlloc] at hrun
    obtain ⟨k, hk, -, -, -, rfl⟩ := bitmapAlloc_ok (by decide) hrun
    have hsmall : k < sectorBits := by simpa [super] using hk
    rw [Nat.div_eq_of_lt hsmall, Nat.mod_eq_of_lt hsmall]
    exact h.trans (.mark hsmall)
  have hcommits : Blocks.getBlk.Commits plain (Grows disk) d := by
    refine Prog.Commits.andThen halloc ?_
    intro b t hrun
    have ht : Grows disk t := halloc.run hrun
    split_ifs
    · exact (Prog.commits_change _ ht).map _
    · exact Prog.commits_done _
  refine hcommits.keeps ?_
  intro b t hrun
  rw [Blocks.run_getBlk] at hrun
  exact h.trans (.getBlk hmeta hrun)

theorem grow_keeps (hmeta : Reserved d) (h : Grows disk d) (m : Nat) (cur : Int) (inode : Inode) :
    (Blocks.grow m cur inode).Keeps plain (Grows disk) d := by
  induction m generalizing d cur inode with
  | zero => exact Prog.keeps_done.mpr h
  | succ m ih =>
    refine (getBlk_keeps hmeta h).andThen ?_
    intro b t hrun
    rw [Blocks.run_getBlk] at hrun
    have hstep := Grows.getBlk hmeta hrun
    refine Prog.keeps_lift_bind (h.trans hstep) ?_
    intro inode' _
    exact ih (hstep.reserved hmeta) (h.trans hstep) _ _

/-- _reserve_zone as _write calls it. -/
theorem reserveZone_keeps (hmeta : Reserved disk) (inode : Inode) (nzone : Int) :
    (Blocks.reserveZone inode nzone false).Keeps plain (Grows disk) disk := by
  refine Prog.keeps_lift_bind (.refl _) ?_
  intro _ _
  dsimp only
  split_ifs with hlt hgt
  · exact grow_keeps hmeta (.refl _) _ _ _
  · exact hgt.2.elim
  · exact Prog.keeps_done.mpr (.refl _)

end Growing

/-! ## Bytes are stored -/

section Storing

variable {m : Int} {lo hi zone done left : Nat} {buf : Nat → UInt8}

/-- What is on the disk while bytes are stored: the zones of the inode, from `lo` to `hi`, are
other bytes. -/
structure Patched (disk : Disk) (inode : Inode) (m : Int) (lo hi : Nat) (d : Disk) : Prop where
  frame : ∀ b, (∀ k : Fin 9, (k : Int) < m → inode.iZone k ≠ b) → d b = disk b
  bytes : ∀ x : Nat, (x : Int) < 1024 * m → x < lo ∨ hi ≤ x →
    fileByte d inode x = fileByte disk inode x

theorem Patched.refl (disk : Disk) (inode : Inode) (m : Int) (lo hi : Nat) :
    Patched disk inode m lo hi disk := ⟨fun _ _ => rfl, fun _ _ _ => rfl⟩

theorem Patched.put (h : Patched disk inode m lo hi d) (hz : Zones inode m) {k off len : Nat}
    (hk : (k : Int) < m) (hoff : off + len ≤ 1024) (hlo : lo ≤ 1024 * k + off)
    (hhi : 1024 * k + off + len ≤ hi) (src : Nat → UInt8) :
    Patched disk inode m lo hi (put d inode k off len src) := by
  refine ⟨fun b hb => ?_, fun x hx hout => ?_⟩
  · rw [put_frame hz.le hk src hb, h.frame b hb]
  · rw [fileByte_put hz hk hoff src hx, if_neg (by omega), h.bytes x hx hout]

theorem store_nothing (data : Bitmap.Block) (off : Nat) (src : Nat → UInt8) :
    store data off 0 src = data := by
  funext i
  exact if_neg (by omega)

/-- The rounds that take no byte change nothing. -/
theorem writeLoop_idle {K : Disk → Prop} (hleft : 1024 < left) (hmod : left % 1024 = 0) (hd : K d)
    (fuel : Nat) (z : Int) (done : Nat) :
    (Blocks.writeLoop inode buf fuel z done left).Keeps plain K d := by
  induction fuel generalizing z done with
  | zero => exact Prog.keeps_fail.mpr hd
  | succ fuel ih =>
    have hbytes : nextBytes left = 0 := (nextBytes_of_gt hleft).trans hmod
    rw [Blocks.writeLoop, if_pos (by omega)]
    refine Prog.keeps_lift_bind hd ?_
    intro blk _
    have hsame : Function.update d blk (store (d blk) 0 (nextBytes left) fun i => buf (done + i)) =
        d := by
      rw [hbytes, store_nothing, Function.update_eq_self]
    refine Prog.keeps_change_bind hd ?_
    rw [hsame, hbytes]
    exact ih _ _

/-- A round that stores into a zone of the inode. -/
theorem writeLoop_into (hz : Zones inode m) (h : Patched disk inode m lo hi d)
    (hleft : 0 < left) (hk : (zone : Int) < m) (hlo : lo ≤ 1024 * zone)
    (hhi : 1024 * zone + nextBytes left ≤ hi) {fuel : Nat} {z : Int} (hzone : z = zone)
    (hrest : ∀ d', Patched disk inode m lo hi d' →
      (Blocks.writeLoop inode buf fuel (z + 1) (done + nextBytes left)
        (left - nextBytes left)).Keeps plain (Patched disk inode m lo hi) d') :
    (Blocks.writeLoop inode buf (fuel + 1) z done left).Keeps plain (Patched disk inode m lo hi)
      d := by
  rw [Blocks.writeLoop, if_pos hleft]
  refine Prog.keeps_lift_bind h ?_
  intro blk hget
  obtain ⟨-, -, -, rfl⟩ := getZoneBlk_ok hget
  rw [hzone, Int.toNat_natCast]
  refine Prog.keeps_change_bind h ?_
  rw [← hzone]
  have hbytes := nextBytes_le left
  exact hrest _ (h.put hz hk (by omega) hlo hhi _)

theorem writeLoop_end {K : Disk → Prop} (hd : K d) (fuel : Nat) (z : Int) (done : Nat) :
    (Blocks.writeLoop inode buf fuel z done 0).Keeps plain K d := by
  cases fuel with
  | zero => exact Prog.keeps_fail.mpr hd
  | succ fuel => exact Prog.keeps_done.mpr hd

theorem writeLoop_last (hz : Zones inode m) (h : Patched disk inode m lo hi d) (hleft : left ≤ 1024)
    (hk : (zone : Int) < m) (hlo : lo ≤ 1024 * zone) (hhi : 1024 * zone + left ≤ hi)
    (fuel : Nat) {z : Int} (hzone : z = zone) (done : Nat) :
    (Blocks.writeLoop inode buf fuel z done left).Keeps plain (Patched disk inode m lo hi) d := by
  rcases Nat.eq_zero_or_pos left with rfl | hpos
  · exact writeLoop_end h _ _ _
  cases fuel with
  | zero => exact Prog.keeps_fail.mpr h
  | succ fuel =>
    have hbytes := nextBytes_of_le hleft
    refine writeLoop_into hz h hpos hk hlo (by rw [hbytes]; exact hhi) hzone ?_
    intro d' hd'
    rw [hbytes, Nat.sub_self]
    exact writeLoop_end hd' _ _ _

/-- The end of the bytes that the loop may change: a block beyond the last one where it puts a
whole block after what is over. -/
def reach (pos count : Nat) : Nat :=
  if 1024 < restBytes pos count ∧ restBytes pos count < 2048 then
    pos + firstBytes pos count + 2048
  else pos + count

theorem le_reach (pos count : Nat) : pos + count ≤ reach pos count := by
  have hsplit := first_add_rest pos count
  rw [reach]
  split_ifs with htwo
  · omega
  · exact le_rfl

/-- The loop of _write stays inside the file and below its reach, whether it ends or not. -/
theorem writeLoop_keeps (hz : Zones inode m) (hend : ((pos + count : Nat) : Int) ≤ 1024 * m)
    (h : Patched disk inode m pos (reach pos count) d) (fuel : Nat) :
    (Blocks.writeLoop inode buf fuel (pos / 1024 + 1) (firstBytes pos count)
      (restBytes pos count)).Keeps plain (Patched disk inode m pos (reach pos count)) d := by
  have hsplit := first_add_rest pos count
  have hreach := le_reach pos count
  have hcast : (pos : Int) / 1024 + 1 = ((pos / 1024 + 1 : Nat) : Int) := by push_cast; rfl
  rcases Nat.lt_or_ge 1024 (restBytes pos count) with hlong | hshort
  · have hnext := @next_zone pos count (by omega)
    cases fuel with
    | zero => exact Prog.keeps_fail.mpr h
    | succ fuel =>
      -- what is over goes out first, and a multiple of a block is left
      have hbytes := nextBytes_of_gt hlong
      refine writeLoop_into hz h (by omega) (by omega) (by omega) (by omega) hcast ?_
      intro d' hd'
      by_cases htwo : restBytes pos count < 2048
      · have hto : reach pos count = pos + firstBytes pos count + 2048 := if_pos ⟨hlong, htwo⟩
        have hzone : (pos : Int) / 1024 + 1 + 1 = ((pos / 1024 + 2 : Nat) : Int) := by
          push_cast
          ring
        exact writeLoop_last hz hd' (by omega) (by omega) (by omega) (by omega) fuel hzone _
      · exact writeLoop_idle (by omega) (by omega) hd' fuel _ _
  · rcases Nat.eq_zero_or_pos (restBytes pos count) with hzero | hpos
    · rw [hzero]
      exact writeLoop_end h _ _ _
    · have hnext := next_zone hpos
      exact writeLoop_last hz h hshort (by omega) (by omega) (by omega) fuel hcast _

end Storing

/-! ## One write that is cut off -/

section Cut

variable {lo hi : Nat} {buf : Nat → UInt8} {disk₁ : Disk} {inode₁ : Inode}

/-- What is on the disk before the record of the inode is written: more blocks may be taken, and
its bytes from `lo` to `hi` may be others. -/
structure Within (disk : Disk) (inode : Inode) (lo hi : Nat) (d : Disk) : Prop where
  fixed : ∀ b < super.sDataStart, b ≠ 3 → d b = disk b
  bits : ∀ b < sectorBits, ZoneBit disk b → ZoneBit d b
  others : ∀ b < sectorBits, super.sDataStart ≤ b → Others disk inode b → d b = disk b
  bytes : ∀ x : Nat, (x : Int) < 1024 * zonesOf inode.iSize → x < lo ∨ hi ≤ x →
    fileByte d inode x = fileByte disk inode x

theorem ne_zmap {b : Nat} (hb : super.sDataStart ≤ b) : b ≠ 3 := by
  simp only [super] at hb
  omega

theorem zone_of_byte (hown : Owned disk inode) {x : Nat}
    (hx : (x : Int) < 1024 * zonesOf inode.iSize) :
    ((Fin.ofNat 9 (x / 1024) : Fin 9) : Int) < zonesOf inode.iSize := by
  obtain ⟨-, h7⟩ := ZoneAccounting.nzone_range ⟨hown.nonneg, hown.le⟩
  have hval := zone_index hx h7
  omega

theorem Grows.within (hmeta : Reserved disk) (hown : Owned disk inode) (h : Grows disk d) :
    Within disk inode lo hi d := by
  refine ⟨fun b hb hb3 => ?_, h.bits, fun b hb hdata hother => ?_, fun x hx _ => ?_⟩
  · exact h.kept b (hb.trans (by decide)) hb3 (hmeta b hb)
  · exact h.kept b hb (ne_zmap hdata) hother.1
  · obtain ⟨hbit, hdata, hlt⟩ := hown.taken _ (zone_of_byte hown hx)
    exact fileByte_congr (h.kept _ hlt (ne_zmap hdata) hbit)

/-- The zones that were added were nobody's. -/
theorem Patched.within (hmeta : Reserved disk) (hown : Owned disk inode) {nzone : Int}
    (hgrown : Grown disk inode (zonesOf inode.iSize) nzone disk₁ inode₁) (h7 : nzone ≤ 7)
    (h : Patched disk₁ inode₁ (max (zonesOf inode.iSize) nzone) lo hi d) :
    Within disk inode lo hi d := by
  have hz := hgrown.zones hown h7
  have hmap : ∀ b < super.sDataStart, d b = disk₁ b := by
    refine fun b hb => h.frame b ?_
    intro k hk heq
    exact Nat.not_le.mpr hb (heq ▸ hz.data k hk)
  refine ⟨fun b hb hb3 => ?_, fun b hb hbit => ?_, fun b hb hdata hother => ?_, fun x hx hout => ?_⟩
  · rw [hmap b hb, hgrown.kept b (hb.trans (by decide)) hb3 (hmeta b hb)]
  · rw [zoneBit_congr (hmap 3 (by decide)) hb]
    exact (hgrown.bits b hb).mpr (.inl hbit)
  · rw [h.frame b, hgrown.kept b hb (ne_zmap hdata) hother.1]
    intro k hk heq
    by_cases hkz : (k : Int) < zonesOf inode.iSize
    · exact hother.2 k hkz ((hgrown.old k hkz).symm.trans heq)
    · obtain ⟨hfree, -⟩ := hgrown.fresh k (not_lt.mp hkz) ((lt_max_iff.mp hk).resolve_left hkz)
      exact hfree (heq ▸ hother.1)
  · obtain ⟨hzone, hblock⟩ := hgrown.old_block hown (zone_of_byte hown hx)
    have hsame : fileByte d inode x = fileByte d inode₁ x := fileByte_congr (by rw [hzone])
    have hbyte := h.bytes x (hx.trans_le (mul_le_mul_of_nonneg_left (le_max_left ..) (by decide))) hout
    rw [hsame, hbyte]
    exact fileByte_congr (by rw [hzone]; exact hblock)

/-- Growing that has been done, for a write that finds its first zone. -/
theorem grown_of_reserve (hmeta : Reserved disk) (hown : Owned disk inode) (hinum : inode.iInum ≠ 0)
    (hcount : 0 < count) (hsmall : count ≤ 4096) (hpos : (pos : Int) / 1024 ≤ 6)
    (hres : Zone.reserveZone disk inode (zonesOf (pos + count)) false = .ok (disk₁, inode₁)) :
    ((pos + count : Nat) : Int) ≤ maxSize ∧
      Grown disk inode (zonesOf inode.iSize) (zonesOf (pos + count)) disk₁ inode₁ := by
  have hold := zonesOf_eq hown.nonneg hown.le
  have hle := hown.le
  simp only [maxSize] at hle
  have hnew : zonesOf (pos + count) = (pos + count + 1023) / 1024 := by
    rw [zonesOf, wrap_of_range (by omega) (by omega), Int.tdiv_eq_ediv_of_nonneg (by omega)]
  have hneeds : ((pos + count : Nat) : Int) ≤ maxSize ∧
      Room disk (zonesOf (pos + count) - zonesOf inode.iSize).toNat := by
    have hgrow := hres
    simp only [reserveZone, bind_eq_ok] at hgrow
    obtain ⟨_, -, hgrow⟩ := hgrow
    simp only [maxSize]
    by_cases hlt : zonesOf inode.iSize < zonesOf (pos + count)
    · rw [if_pos hlt] at hgrow
      obtain ⟨hroom, hbound⟩ := FileIo.room_of_grow hmeta hgrow
      have h7 := hbound (by omega)
      exact ⟨by omega, hroom⟩
    · have hnone : (zonesOf (pos + count) - zonesOf inode.iSize).toNat = 0 := by omega
      rw [hnone]
      exact ⟨by omega, ∅, le_rfl, by simp⟩
  obtain ⟨hend, hroom⟩ := hneeds
  obtain ⟨h7, h0, -, -⟩ := zones_bound hown hend
  obtain ⟨disk₂, inode₂, hres₂, hgrown⟩ := reserveZone_of_room hinum hmeta hroom h0 h7
  obtain ⟨rfl, rfl⟩ := Prod.mk.inj (Except.ok.inj (hres.symm.trans hres₂))
  exact ⟨hend, hgrown⟩

theorem testInodeNr_keeps {K : Disk → Prop} (hd : K d) (n : Nat) :
    (Blocks.testInodeNr n).Keeps plain K d := by
  rw [Blocks.testInodeNr, Blocks.bitmapTest]
  split_ifs
  · exact Prog.keeps_fail.mpr hd
  · exact (Prog.keeps_look.mpr hd).andThen fun _ _ hrun => by
      cases hrun
      exact Prog.keeps_done.mpr hd

/-- write_inode changes one block, in its last visit. -/
theorem writeInode_commits {K : Disk → Prop} (hd : K d) (inode : Inode) (ptrs : Pointers) :
    (Blocks.writeInode inode ptrs).Commits plain K d := by
  refine Prog.commits_lift_bind hd ?_
  intro _ _
  refine Prog.Commits.andThen (testInodeNr_keeps hd _) ?_
  intro found d' hrun
  have hd' : K d' := (testInodeNr_keeps hd _).run hrun
  split_ifs
  · exact Prog.commits_change _ hd'
  · exact (Prog.keeps_fail.mpr hd').commits

theorem blocks_write_eq (hcount : 0 < count) :
    Blocks.write inode pos buf count ptrs = (do
      let inode ← Blocks.reserveZone inode (zonesOf (pos + count)) false
      let blk ← .lift (getZoneBlk inode (pos / 1024))
      .change blk fun data => store data (pos % 1024) (firstBytes pos count) buf
      Blocks.writeLoop inode buf 8 (pos / 1024 + 1) (firstBytes pos count) (restBytes pos count)
      let inode := { inode with iSize := sizeAfter inode.iSize pos count }
      Blocks.writeInode inode ptrs
      pure ((count : Int), inode)) := by
  have hargs : (pos : Int) ≥ 0 ∧ (count : Int) > 0 := ⟨by omega, by omega⟩
  have hoff : ((pos : Int) % 1024).toNat = pos % 1024 := by omega
  rw [Blocks.write, assert_pos hargs]
  simp only [hoff, Int.toNat_natCast]
  rfl

/-- _write changes nothing but bytes in its range and free blocks, until it writes the record. -/
theorem write_commits (hmeta : Reserved disk) (hown : Owned disk inode) (hinum : inode.iInum ≠ 0)
    (hcount : 0 < count) (hsmall : count ≤ 4096) (buf : Nat → UInt8) (ptrs : Pointers) :
    (Blocks.write inode pos buf count ptrs).Commits plain
      (Within disk inode pos (reach pos count)) disk := by
  rw [blocks_write_eq hcount]
  have hreserve := (reserveZone_keeps hmeta inode (zonesOf (pos + count))).mono fun _ h =>
    (h.within hmeta hown : Within disk inode pos (reach pos count) _)
  refine Prog.Commits.andThen hreserve ?_
  intro inode₁ disk₁ hrun
  have hwithin := hreserve.run hrun
  rw [Blocks.run_reserveZone] at hrun
  refine Prog.commits_lift_bind hwithin ?_
  intro blk hget
  obtain ⟨-, h6, -, rfl⟩ := getZoneBlk_ok hget
  cases hres : Zone.reserveZone disk inode (zonesOf (pos + count)) false with
  | error e =>
    rw [hres] at hrun
    cases hrun
  | ok r =>
    rw [hres] at hrun
    obtain ⟨rfl, rfl⟩ := Prod.mk.inj (Except.ok.inj hrun)
    obtain ⟨hend, hgrown⟩ := grown_of_reserve hmeta hown hinum hcount hsmall h6 hres
    obtain ⟨h7, -, hbound, -⟩ := zones_bound hown hend
    have hz := hgrown.zones hown h7
    have hfirst : firstBytes pos count ≤ 1024 - pos % 1024 := min_le_right _ _
    have hsplit := first_add_rest pos count
    have hreach := le_reach pos count
    have hput : Patched r.1 r.2 (max (zonesOf inode.iSize) (zonesOf (pos + count))) pos
        (reach pos count) (put r.1 r.2 (pos / 1024) (pos % 1024) (firstBytes pos count) buf) :=
      (Patched.refl ..).put hz (by omega) (by omega) (by omega) (by omega) _
    refine Prog.commits_change_bind hwithin (hput.within hmeta hown hgrown h7) ?_
    have hloop := @writeLoop_keeps _ _ _ _ _ _ buf hz hbound hput 8
    refine Prog.Commits.andThen (hloop.mono fun _ h => h.within hmeta hown hgrown h7) ?_
    intro _ disk₂ hrun₂
    have hpatched := hloop.run hrun₂
    exact (writeInode_commits (hpatched.within hmeta hown hgrown h7) _ _).map _

end Cut

/-! ## What is left of the files -/

section Left

variable {es : List Record} {data : List UInt8} {buf : Nat → UInt8}

/-- A file after a write that was cut off. It has its old length or the new one, and its old bytes
where the write does not reach; the new length comes only with all of the data. -/
structure Torn (old new : List UInt8) (pos count : Nat) (data : List UInt8) : Prop where
  length : new.length = old.length ∨ new.length = max old.length (pos + count)
  kept : ∀ x < old.length, x < pos ∨ reach pos count ≤ x → new[x]? = old[x]?
  ordered : restBytes pos count ≤ 1024 → new.length ≠ old.length → new = splice 0 old pos data

/-- The disk after a write to file `n` that was cut off. -/
structure Left (disk d : Disk) (n pos count : Nat) (data : List UInt8) : Prop where
  table : Table d
  spared : Spared disk d (· ≠ n)
  map : d 2 = disk 2
  links : (stored d n).iNlink = (stored disk n).iNlink
  torn : Torn (bytesOf disk (stored disk n)) (bytesOf d (stored d n)) pos count data

theorem Within.mono {lo hi hi' : Nat} (h : Within disk inode lo hi d) (hle : hi ≤ hi') :
    Within disk inode lo hi' d :=
  ⟨h.fixed, h.bits, h.others, fun x hx hout => h.bytes x hx (hout.imp_right hle.trans)⟩

/-- The records are as they were. -/
theorem Within.record (htable : Table disk) {lo hi : Nat} (h : Within disk inode lo hi d)
    (hn : Used disk n) : stored d n = stored disk n := by
  have hlt := inodeBlk_lt (htable.inside n hn)
  have hge := inodeBlk_ge n
  exact stored_congr (h.fixed _ hlt (by omega))

theorem Within.table (htable : Table disk) {lo hi : Nat} (h : Within disk inode lo hi d) :
    Table d := by
  have hmap : d 2 = disk 2 := h.fixed 2 (by decide) (by decide)
  have hused : ∀ m, Used d m → Used disk m := fun m hm => (used_congr hmap m).mp hm
  have howns : ∀ m k b, Owns d m k b → Owns disk m k b := by
    rintro m k b ⟨hm, hk, hzone⟩
    have hsame := h.record htable (hused m hm)
    rw [hsame] at hk hzone
    exact ⟨hused m hm, hk, hzone⟩
  refine ⟨fun b hb => ?_, (used_congr hmap 1).mpr htable.root, fun m hm => ?_, fun m hm => ?_,
    fun m hm => ?_, fun m hm => ?_, fun m l k k' b hm hl => ?_⟩
  · exact h.bits b (hb.trans (by decide)) (htable.reserved b hb)
  · exact htable.inside m (hused m hm)
  · rw [h.record htable (hused m hm)]
    exact htable.number m (hused m hm)
  · have hown := htable.owned m (hused m hm)
    rw [h.record htable (hused m hm)]
    refine ⟨hown.nonneg, hown.le, fun k hk => ?_, hown.inj⟩
    obtain ⟨hbit, hdata, hlt⟩ := hown.taken k hk
    exact ⟨h.bits _ hlt hbit, hdata, hlt⟩
  · rw [h.record htable (hused m hm)]
    exact htable.high m (hused m hm)
  · exact htable.apart m l k k' b (howns m k b hm) (howns l k' b hl)

/-- Before the record is written, the file has its old length. -/
theorem Within.left (htable : Table disk) (hn : Used disk inode.iInum)
    (hsame : stored disk inode.iInum = onDisk inode)
    (h : Within disk inode pos (reach pos count) d) (data : List UInt8) :
    Left disk d inode.iInum pos count data := by
  have hmap : d 2 = disk 2 := h.fixed 2 (by decide) (by decide)
  obtain ⟨hown, -, -, hother⟩ := htable.ready hn hsame
  have hself := h.record htable hn
  have hlen : (bytesOf d (stored d inode.iInum)).length =
      (bytesOf disk (stored disk inode.iInum)).length := by
    rw [length_bytesOf, length_bytesOf, hself]
  refine ⟨h.table htable, ⟨h.fixed 1 (by decide) (by decide),
    fun m _ hm => (used_congr hmap m).mpr hm, fun m _ hm => h.record htable hm, ?_⟩, hmap,
    by rw [hself], .inl hlen, fun x hx hout => ?_, fun _ hne => absurd hlen hne⟩
  · rintro m k b hmn ⟨hm, hk, rfl⟩
    obtain ⟨-, hdata, hlt⟩ := (htable.owned m hm).taken k hk
    exact h.others _ hlt hdata (hother m hm hmn k hk)
  · rw [length_bytesOf, hsame] at hx
    rw [hself, hsame, getElem?_bytesOf hx, getElem?_bytesOf hx]
    exact congrArg some (h.bytes x (lt_zones hown hx) hout)

theorem scattered_out {x : Nat} (hout : x < pos ∨ reach pos count ≤ x)
    (hshort : restBytes pos count < 2048) (old : UInt8) : scattered pos count buf x old = old := by
  have hsplit := first_add_rest pos count
  have hreach := le_reach pos count
  rw [scattered]
  by_cases hone : restBytes pos count ≤ 1024 ∨ x < pos + (count - 1024)
  · rw [if_pos hone, if_neg (by omega)]
  · have hto : reach pos count = pos + firstBytes pos count + 2048 :=
      if_pos ⟨not_le.mp fun hle => hone (.inl hle), hshort⟩
    rw [if_neg hone, if_neg (by omega)]

/-- After it, the file has all the bytes that the write puts there. -/
theorem left_of_write (htable : Table disk) (hn : Used disk inode.iInum)
    (hsame : stored disk inode.iInum = onDisk inode)
    (htrim : Trimmed disk (stored disk inode.iInum)) (hcount : 0 < count) (hsmall : count ≤ 4096)
    {ret : Int} (hwrite : Zone.write disk inode pos buf count ptrs = .ok (ret, d, inode')) :
    restBytes pos count < 2048 ∧
      Left disk d inode.iInum pos count ((List.range count).map buf) := by
  obtain ⟨hown, -, -, -⟩ := htable.ready hn hsame
  have hlive : Live disk inode := ⟨hn.1, hn.2.1, hn.2.2, inodeBlk_lt (htable.inside _ hn)⟩
  obtain ⟨hbound, hroom⟩ := FileIo.write_needs htable.reserved hown hcount hsmall hwrite
  have hfits := write_only_fits htable.reserved hown hlive hroom hcount hbound hwrite
  obtain ⟨disk₁, inode₁, hwrite₁, hsteps⟩ :=
    write_of_fits htable.reserved hown hlive hroom hcount hbound hfits buf ptrs
  obtain ⟨-, heq⟩ := Prod.mk.inj (Except.ok.inj (hwrite.symm.trans hwrite₁))
  obtain ⟨rfl, rfl⟩ := Prod.mk.inj heq
  obtain ⟨hbeside, hself, htable', -⟩ := htable.write hn hsame hwrite
  have hno : NoHole disk inode := ⟨hown, by rw [hsame] at htrim; exact htrim⟩
  have hsize := hsteps.size
  have h0 := hown.nonneg
  refine ⟨hfits.1, htable', Table.write_spares htable hn hsame hwrite, hbeside.map, ?_, ?_⟩
  · rw [hself, hsame]
    exact (write_same hwrite).iNlink
  rw [hself, hsame]
  refine ⟨.inr ?_, fun x hx hout => ?_, fun hrest _ => ?_⟩
  · rw [length_bytesOf, length_bytesOf]
    show inode'.iSize.toNat = max inode.iSize.toNat (pos + count)
    omega
  · rw [length_bytesOf] at hx
    have hx : x < inode.iSize.toNat := hx
    have hx' : x < inode'.iSize.toNat := by omega
    have hin : (x : Int) < inode.iSize := by omega
    rw [@getElem?_bytesOf _ (onDisk inode) _ hx, @getElem?_bytesOf _ (onDisk inode') _ hx']
    have hbyte := hsteps.bytes hno hlive hbound (x := x) (by omega)
    rw [scattered_out hout hfits.1, oldByte, if_pos hin] at hbyte
    exact congrArg some hbyte
  · show bytesOf d inode' = splice 0 (bytesOf disk inode) pos _
    exact Steps.splices hno hlive hcount hbound hrest hsteps

theorem entriesOn_of_listing (h : Listing ⟨disk, stored disk 1⟩ es) :
    entriesOn disk = es.map Record.entry := by
  have hsize : (stored disk 1).iSize = 32 * es.length := h.size
  have hcount : ((stored disk 1).iSize / 32).toNat = es.length := by omega
  rw [entriesOn, hcount]
  refine List.ext_getElem (by simp) fun i hi _ => ?_
  simp only [List.length_map, List.length_range] at hi
  rw [List.getElem_map, List.getElem_map, List.getElem_range, ← h.entryAt hi]

theorem mem_numbersOn_of_listing (h : Listing ⟨disk, stored disk 1⟩ es) :
    n ∈ numbersOn disk ↔ filesOf es n := by
  rw [numbersOn, entriesOn_of_listing h, List.map_map, List.mem_map]
  rfl

/-- The root directory is not touched. -/
theorem Left.listing (h : Left disk d n pos count data) (htable : Table disk) (hn : n ≠ 1)
    (hes : Listing ⟨disk, stored disk 1⟩ es) : Listing ⟨d, stored d 1⟩ es := by
  have hsame := h.spared.record 1 hn.symm htable.root
  refine listing_frame hes (congrArg Inode.iSize hsame) (congrArg Inode.iZone hsame) ?_
  intro k hk
  exact h.spared.block 1 k _ hn.symm ⟨htable.root, hk, rfl⟩

/-- fs_init can start from what is left. -/
theorem Left.sound (h : Left disk d n pos count data) (hs : Sound disk) (hn : n ≠ 1) :
    Sound d := by
  obtain ⟨htable, hzero, es, hes, hplain, hlinked⟩ := hs
  refine ⟨h.table, zero_congr hzero h.map, es, h.listing htable hn hes, hplain, fun r hr => ?_⟩
  obtain ⟨hone, hused, hlink⟩ := hlinked r hr
  refine ⟨hone, (used_congr h.map _).mpr hused, ?_⟩
  by_cases heq : r.inode = n
  · rw [heq, h.links, ← heq]
    exact hlink
  · rw [h.spared.record _ heq hused]
    exact hlink

/-- The names are there, and the other files. -/
theorem Left.files (h : Left disk d n pos count data) (hs : Sound disk) (hn : n ≠ 1) :
    numberOf d = numberOf disk ∧ (∀ m, m ≠ n → bodyOn d m = bodyOn disk m) ∧
      (n ∈ numbersOn disk → Torn (bodyOn disk n) (bodyOn d n) pos count data) := by
  obtain ⟨htable, -, es, hes, -, hlinked⟩ := hs
  have hes' := h.listing htable hn hes
  have hentries : entriesOn d = entriesOn disk :=
    (entriesOn_of_listing hes').trans (entriesOn_of_listing hes).symm
  have hnumbers : numbersOn d = numbersOn disk := by
    rw [numbersOn, numbersOn, hentries]
  refine ⟨funext fun c => ?_, fun m hm => ?_, fun hmem => ?_⟩
  · rw [numberOf, numberOf, hentries]
  · rw [bodyOn, bodyOn, hnumbers]
    split_ifs with hfile
    · obtain ⟨r, hr, rfl⟩ := (mem_numbersOn_of_listing hes).mp hfile
      obtain ⟨-, hused, -⟩ := hlinked r hr
      exact h.spared.sameBytes htable hm hused
    · rfl
  · have hmem' : n ∈ numbersOn d := by
      rw [hnumbers]
      exact hmem
    rw [bodyOn, bodyOn, if_pos hmem, if_pos hmem']
    exact h.torn

end Left

/-! ## sys_write -/

section Writing

variable {usr : Nat → UInt8}

theorem Left.refl (htable : Table disk) (hn : Used disk inode.iInum)
    (hsame : stored disk inode.iInum = onDisk inode) (data : List UInt8) :
    Left disk disk inode.iInum pos count data := by
  obtain ⟨hown, -, -, -⟩ := htable.ready hn hsame
  exact Within.left htable hn hsame ((Grows.refl disk).within htable.reserved hown) data

/-- Nothing is left to write. -/
theorem sysWriteLoop_end {K : Disk → Prop} (hd : K d) (t : FileIo.Writing) (hleft : t.left = 0)
    (fuel : Nat) : (Blocks.sysWriteLoop usr ptrs fuel t).Keeps plain K d := by
  cases fuel with
  | zero => exact Prog.keeps_fail.mpr hd
  | succ fuel =>
    rw [Blocks.sysWriteLoop, if_neg (by omega)]
    exact Prog.keeps_done.mpr hd

theorem reach_chunk (pos count : Nat) : reach pos (min count 4096) ≤ reach pos count := by
  by_cases hsmall : count ≤ 4096
  · rw [min_eq_left hsmall]
  · have hlower := le_reach pos count
    have hfirst : firstBytes pos (min count 4096) ≤ 1024 - pos % 1024 := min_le_right _ _
    have hsplit := first_add_rest pos (min count 4096)
    rw [reach, if_neg (by omega)]
    omega

/-- Only a chunk that ends the write is ever finished. -/
theorem sysWriteLoop_keeps (htable : Table disk) (hn : Used disk inode.iInum)
    (hsame : stored disk inode.iInum = onDisk inode)
    (htrim : Trimmed disk (stored disk inode.iInum)) (hcount : 0 < count) {t : FileIo.Writing}
    (hinode : t.file.inode = inode) (hpos : t.file.fPos = pos) (hleft : t.left = count)
    (hdone : t.done = 0) (fuel : Nat) : (Blocks.sysWriteLoop usr ptrs fuel t).Keeps plain
      (fun d => Left disk d inode.iInum pos count ((List.range count).map usr)) disk := by
  obtain ⟨hown, -, -, -⟩ := htable.ready hn hsame
  cases fuel with
  | zero => exact Prog.keeps_fail.mpr (.refl htable hn hsame _)
  | succ fuel =>
    rw [Blocks.sysWriteLoop, if_pos (by omega)]
    have hchunk : FileIo.chunk t.left = ((min count 4096 : Nat) : Int) := by
      rw [hleft, FileIo.chunk_nat]
    have hbuf : ∀ i < count, count ≤ 4096 → FileIo.filled usr t i = usr i := by
      intro i hi hsmall
      rw [FileIo.filled, if_pos (by omega), hdone, Nat.zero_add]
    rw [hinode, hpos, hchunk]
    -- a chunk that is not the last has three blocks after its first
    have hwrite : ∀ ret d inode', Zone.write disk inode pos (FileIo.filled usr t)
        ((min count 4096 : Nat) : Int) ptrs = .ok (ret, d, inode') →
        count ≤ 4096 ∧ ret = count ∧
          Left disk d inode.iInum pos count ((List.range count).map usr) := by
      intro ret d inode' hput
      obtain ⟨hshort, hlast⟩ := left_of_write htable hn hsame htrim (by omega) (by omega) hput
      have hsmall : count ≤ 4096 := by
        by_contra hbig
        have hfirst : firstBytes pos (min count 4096) ≤ 1024 - pos % 1024 := min_le_right _ _
        have hsplit := first_add_rest pos (min count 4096)
        omega
      have hmin : min count 4096 = count := min_eq_left hsmall
      rw [hmin] at hlast hput
      have hret : ret = count := by
        simp only [Zone.write, bind_eq_ok, pure_eq_ok, Except.ok.injEq, Prod.mk.injEq] at hput
        obtain ⟨_, -, _, -, _, -, _, -, _, -, hret, -⟩ := hput
        exact hret.symm
      have hdata : (List.range count).map (FileIo.filled usr t) = (List.range count).map usr :=
        List.map_congr_left fun i hi => hbuf i (List.mem_range.mp hi) hsmall
      rw [hdata] at hlast
      exact ⟨hsmall, hret, hlast⟩
    have hfirst : (Blocks.write inode pos (FileIo.filled usr t) ((min count 4096 : Nat) : Int)
        ptrs).Keeps plain
          (fun d => Left disk d inode.iInum pos count ((List.range count).map usr)) disk := by
      refine Prog.Keeps.mono (write_commits htable.reserved hown hn.1 (by omega) (by omega) _ _) ?_
      rintro d (hwithin | ⟨r, hrun⟩)
      · exact Within.left htable hn hsame (hwithin.mono (reach_chunk pos count)) _
      · rw [Blocks.run_write] at hrun
        cases hput : Zone.write disk inode pos (FileIo.filled usr t)
            ((min count 4096 : Nat) : Int) ptrs with
        | error e =>
          rw [hput] at hrun
          cases hrun
        | ok x =>
          rw [hput] at hrun
          obtain ⟨-, rfl⟩ := Prod.mk.inj (Except.ok.inj hrun)
          exact (hwrite _ _ _ hput).2.2
    refine Prog.keeps_lift_bind (.refl htable hn hsame _) fun _ _ => ?_
    refine hfirst.andThen ?_
    intro r d hrun
    have hd := hfirst.run hrun
    rw [Blocks.run_write] at hrun
    cases hput : Zone.write disk inode pos (FileIo.filled usr t)
        ((min count 4096 : Nat) : Int) ptrs with
    | error e =>
      rw [hput] at hrun
      cases hrun
    | ok x =>
      rw [hput] at hrun
      obtain ⟨rfl, -⟩ := Prod.mk.inj (Except.ok.inj hrun)
      obtain ⟨hsmall, hret, -⟩ := hwrite _ _ _ hput
      have hzero : toU32 (t.left - x.1) = 0 := by
        rw [hret, hleft, sub_self]
        rfl
      dsimp only
      rw [if_pos (by omega), hzero]
      exact sysWriteLoop_end hd _ rfl _

variable {s : FsState} {fd : Fin nrMaxOpen} {f fuel : Nat} {found : Found}

/-- Asking for a page and giving it back visits no block. -/
theorem keeps_withPage {α : Type} {body : Blocks α} {K : Disk → Prop} (hdisk : K disk)
    (h : body.Keeps plain K disk) : (BlockCalls.withPage found body).Keeps plain K disk := by
  refine Prog.keeps_lift_bind hdisk fun a _ => ?_
  refine h.andThen fun r d hrun => ?_
  exact Prog.keeps_lift_bind (h.run hrun) fun _ _ => Prog.keeps_done.mpr (h.run hrun)

/-- sys_write on an open descriptor, wherever it is cut off. -/
theorem sysWrite_keeps (h : Good (withDisk s disk)) (hf : OpenAt (withDisk s disk) fd f)
    (hbehind : behindFile (withDisk s disk) f = some (n, pos)) : n ≠ 1 ∧ n ∈ numbersOn disk ∧
      (sysWrite fuel s fd count found usr ptrs).Keeps plain
        (fun d => Left disk d n pos count ((List.range count).map usr)) disk := by
  obtain ⟨es, hes⟩ := h.inv.indexed
  obtain ⟨x, p, hr⟩ := h.reaches hes hf.1
  have hv := hes.cached.through
  have htable : Table disk := hv.table
  have hused : Used disk (s.vol.inode p).iInum := hv.used p hr.mem
  have hsame : stored disk (s.vol.inode p).iInum = onDisk (s.vol.inode p) := hv.same p hr.mem
  have hplace := behindFile_eq hr.dentry hr.inode
  rw [hbehind] at hplace
  obtain ⟨rfl, hpos⟩ := Prod.mk.inj (Option.some.inj hplace)
  have hposition : FileIo.Position (s.file f).fPos := h.position f hf.1
  have hpos : (s.file f).fPos = pos := by
    have hnat : pos = (s.file f).fPos.toNat := hpos
    rw [hnat, Int.toNat_of_nonneg hposition.1]
  have hfile : (s.vol.inode p).iInum ∈ numbersOn disk :=
    (mem_numbersOn hv hes.entries.toNamed).mpr hr.named
  have htrim : Trimmed disk (stored disk (s.vol.inode p).iInum) := h.trimmed _ hfile
  have hnone : Left disk disk (s.vol.inode p).iInum pos count ((List.range count).map usr) :=
    .refl htable hused hsame _
  refine ⟨root_number hv hr.mem hr.notRoot, hfile, ?_⟩
  refine Prog.keeps_lift_bind hnone ?_
  intro f' hf'
  obtain rfl : f = f' := Option.some.inj (hf.2.symm.trans (deref_eq_ok.mp hf'))
  refine Prog.keeps_lift_bind hnone ?_
  intro x' hx'
  obtain rfl : x = x' := Option.some.inj (hr.dentry.symm.trans (deref_eq_ok.mp hx'))
  split_ifs with hcount
  · exact keeps_withPage hnone (Prog.keeps_done.mpr hnone)
  refine Prog.keeps_lift_bind hnone ?_
  intro p' hp'
  obtain rfl : p = p' := Option.some.inj (hr.inode.symm.trans (deref_eq_ok.mp hp'))
  have hloop : (Blocks.sysWriteLoop usr ptrs fuel
      ⟨WriteThrough.behind s f p, count, 0, found.page, found.screen⟩).Keeps plain
      (fun d => Left disk d (s.vol.inode p).iInum pos count ((List.range count).map usr)) disk :=
    sysWriteLoop_keeps htable hused hsame htrim (by omega) rfl hpos rfl rfl fuel
  refine keeps_withPage hnone (hloop.andThen ?_)
  intro t d hrun
  exact Prog.keeps_done.mpr (hloop.run hrun)

end Writing

/-! ## Power loss and restart -/

section Restart

variable {hdRdwt : BioCmd → Ram × Drive → Kernel (Ram × Drive)} {m m' : Machine}
  {heads : Nat → BufferHead} {request : Nat → BioRequest} {ram : Ram} {drive : Drive}
  {low high : Int} {memory : FsState}

/-- Power is lost between two block visits of a function, and fs_init runs on what the drive
holds. -/
inductive Interrupted {α : Type} (hdRdwt : BioCmd → Ram × Drive → Kernel (Ram × Drive))
    (p : Blocks α) (c : Cache Drive) (m' : Machine) : Prop
  | after {c' : Cache Drive} (visits : Nat) {memory : FsState} {ptrs : Pointers}
      {heads : Nat → BufferHead} {request : Nat → BioRequest} {ram : Ram} {low high : Int} :
      p.cut (visit hdRdwt (super.sDev : Int)) visits c = c' →
      Runs hdRdwt (fsInit memory ptrs) (powered heads request ram c'.blk.device.2 low high) m'.fs
        m'.cache → Interrupted hdRdwt p c m'

theorem Interrupted.view (hexact : Exact hdRdwt) {α : Type} {p : Blocks α} {c : Cache Drive}
    {K : Disk → Prop} (hquiet : Quiet c) (hkeeps : p.Keeps plain K (shown c))
    (h : Interrupted hdRdwt p c m') :
    ∃ d, K d ∧ ∃ memory ptrs, DentryCache.fsInit memory d ptrs = .ok m'.view := by
  obtain ⟨visits, hcut, hinit⟩ := h
  have hcached : p.Keeps (visit hdRdwt (super.sDev : Int)) (fun s => ∃ d, Shows s d ∧ K d) c :=
    Prog.Keeps.simulates (answers_visit hexact) ⟨hquiet, rfl⟩ hkeeps
  have hleft := hcached visits
  rw [hcut] at hleft
  obtain ⟨d, ⟨-, hshown⟩, hd⟩ := hleft
  obtain ⟨-, hview⟩ := hinit.view hexact (fun _ => run_fsInit _ _) (quiet_powered ..)
  rw [shown_powered, hshown] at hview
  dsimp only at hview
  exact ⟨d, hd, _, _, hview⟩

/-- A restart on the disk that a cut off write leaves. -/
theorem Left.restart {s s' : FsState} {data : List UInt8} (h : Good s)
    (hleft : Left s.vol.disk d n pos count data) (hn : n ≠ 1) (hfile : n ∈ numbersOn s.vol.disk)
    (hinit : DentryCache.fsInit memory d ptrs = .ok s') : UserPaths.Inv s' ∧
      (FileStore.store s').names = (FileStore.store s).names ∧ (∀ k, k ≠ n → (FileStore.store s').body k = (FileStore.store s).body k) ∧
      Torn ((FileStore.store s).body n) ((FileStore.store s').body n) pos count data := by
  obtain ⟨es, hes⟩ := h.inv.indexed
  have hsound := FileStore.Indexed.sound hes
  have hinv : UserPaths.Inv s' := .fsInit (fun _ => hleft.sound hsound hn) hinit
  have hdisk : s'.vol.disk = d := by
    have hmagic : wordAt (byteAt (d 1)) 0 4 = DentryCache.superMagic := by
      rw [hleft.spared.super]
      exact h.magic
    have hformat := UserPaths.fsInit_formatted hinit
    rw [DentryCache.formatted, if_pos hmagic, pure_eq_ok, Except.ok.injEq] at hformat
    exact hformat.symm
  obtain ⟨hnames, hbodies, htorn⟩ := hleft.files hsound hn
  rw [store_names, store_names, store_body, store_body, hdisk]
  exact ⟨hinv, hnames, hbodies, htorn hfile⟩

/-- Power loss during a sys_write to a file spares the names and the other files, and leaves that
file as a write that was cut off may. -/
def WritesSafely (hdRdwt : BioCmd → Ram × Drive → Kernel (Ram × Drive)) (m : Machine) : Prop :=
  ∀ fd f n pos fuel count found usr ptrs m', OpenAt m.view fd f →
    behindFile m.view f = some (n, pos) →
    Interrupted hdRdwt (sysWrite fuel m.fs fd (count : Nat) found usr ptrs) m.cache m' →
    UserPaths.Inv m'.view ∧ (FileStore.store m'.view).names = (FileStore.store m.view).names ∧
      (∀ k, k ≠ n → (FileStore.store m'.view).body k = (FileStore.store m.view).body k) ∧
      Torn ((FileStore.store m.view).body n) ((FileStore.store m'.view).body n) pos count ((List.range count).map usr)

/-- In every state that a run of plain calls and restarts reaches, power may be lost during a
sys_write of any length, also of one that would never return. -/
theorem writes_survive_power_loss (hexact : Exact hdRdwt) (hdrive : Usable (blocksOf drive))
    (hboot : Runs hdRdwt (fsInit memory ptrs) (powered heads request ram drive low high) m.fs
      m.cache)
    {tr : List (Act × Machine)} (hrun : Exec (CachedFiles.Step hdRdwt) m tr)
    (hplain : Guarded (fun m a => Plain m.view a) m tr) : Always (WritesSafely hdRdwt) m tr := by
  obtain ⟨hquiet, hinit⟩ := hboot.view hexact (fun _ => run_fsInit _ _) (quiet_powered ..)
  dsimp only at hinit
  have hstep : ∀ m a m', Good m.view ∧ m.Idle → Plain m.view a → CachedFiles.Step hdRdwt m a m' →
      Good m'.view ∧ m'.Idle := by
    intro m a m' h hplain st
    obtain ⟨hquiet', hview⟩ := st.view hexact h.2
    obtain ⟨hgood', -⟩ := h.1.step hplain hview
    exact ⟨hgood', hquiet'⟩
  have hgood := hrun.always_of_guarded hstep ⟨.fsInit hdrive hinit, hquiet⟩ hplain
  refine hgood.imp ?_
  intro m h fd f n pos fuel count found usr ptrs m' hf hbehind hlost
  obtain ⟨hn, hfile, hkeeps⟩ := sysWrite_keeps (s := m.fs) h.1 hf hbehind
  obtain ⟨d, hleft, memory, ptrs', hinit⟩ := hlost.view hexact h.2 hkeeps
  rw [← view_disk] at hleft hfile
  exact hleft.restart h.1 hn hfile hinit

end Restart

/-! ## Power is lost after the bytes are stored, before the record is written -/

section Story

structure Story where
  boot : Machine
  created : Machine
  found : Machine
  slot : Option (Fin nrMaxOpen)

/-- `/a` is created on a zeroed drive, and a write of three bytes is cut off after its third visit:
a block is taken, zeroed, and has the bytes. -/
def story : Kernel Story := do
  let (fs, cache) ← through (fsInit blankMemory fun _ => 0) (cold fun _ _ => 0)
  let boot : Machine := ⟨fs, cache⟩
  let ((slot, fs), cache) ← through (sysOpen fs (rootPath [97]) 1 plainEnv) cache
  let created : Machine := ⟨fs, cache⟩
  let broken := (sysWrite 2 fs 0 (3 : Nat) cleared (fun _ => 7) fun _ => 0).cut
    (visit plainHd (super.sDev : Int)) 3 cache
  let (fs, cache) ← through (fsInit blankMemory fun _ => 0) (cold broken.blk.device.2)
  pure ⟨boot, created, ⟨fs, cache⟩, slot⟩

theorem openAt_view (m : Machine) (fd : Fin nrMaxOpen) (f : Nat) :
    OpenAt m.view fd f ↔ f ∈ m.fs.files ∧ m.fs.filp fd = some f := by
  rw [OpenAt, Machine.view, withDisk]

theorem behindFile_view (m : Machine) (f : Nat) : behindFile m.view f = behindFile m.fs f := by
  rw [behindFile, behindFile, Machine.view, withDisk, BlockCalls.onDisk]

theorem story_run : ∃ r, story = .ok r ∧ (CanOpen r.boot.view ∧ ¬InodeBit r.boot.view.vol.disk 2) ∧
    (0 ∈ r.created.fs.files ∧ r.created.fs.filp 0 = some 0) ∧
      behindFile r.created.fs 0 = some (2, 0) := by
  have hrun : (story.map fun r => decide ((CanOpen r.boot.view ∧
      ¬MapBit r.boot.view.vol.disk super.sImapStart 2) ∧ (0 ∈ r.created.fs.files ∧
        r.created.fs.filp 0 = some 0) ∧ behindFile r.created.fs 0 = some (2, 0))).toOption =
      some true := by decide +kernel
  cases hr : story with
  | error e =>
    rw [hr] at hrun
    cases hrun
  | ok r =>
    rw [hr] at hrun
    exact ⟨r, rfl, of_decide_eq_true (Option.some.inj hrun)⟩

theorem writes_survive_power_loss_a : ∃ m m' : Machine, Interrupted plainHd
      (sysWrite 2 m.fs 0 (3 : Nat) cleared (fun _ => 7) fun _ => 0) m.cache m' ∧
    (FileStore.store m'.view).names = (FileStore.store m.view).names ∧
    Torn ((FileStore.store m.view).body 2) ((FileStore.store m'.view).body 2) 0 3
      ((List.range 3).map fun _ => 7) := by
  obtain ⟨r, hr, ⟨⟨hroot, hspare, hsize⟩, hbit⟩, hopen, hbehind⟩ := story_run
  have hcreates : Plain r.boot.view (.open (rootPath [97]) 1 plainEnv r.slot) :=
    polite_a 1 hroot hspare (fun _ => hbit) hsize
  simp only [story, bind_eq_ok, pure_eq_ok, Except.ok.injEq] at hr
  obtain ⟨⟨fs, cache⟩, hboot, ⟨⟨slot, fs₁⟩, cache₁⟩, hcreated, ⟨fs₂, cache₂⟩, hfound, rfl⟩ := hr
  have hrun : Exec (CachedFiles.Step plainHd) ⟨fs, cache⟩
      [(.open (rootPath [97]) 1 plainEnv slot, ⟨fs₁, cache₁⟩)] := .cons (.open hcreated) (.nil _)
  have hsafe := (writes_survive_power_loss (m := ⟨fs, cache⟩) plainHd_exact usable_zero hboot hrun
    ⟨hcreates, trivial⟩).2 _ (List.mem_singleton_self _)
  have hlost : Interrupted plainHd
      (sysWrite 2 fs₁ 0 (3 : Nat) cleared (fun _ => 7) fun _ => 0) cache₁ ⟨fs₂, cache₂⟩ :=
    .after 3 rfl hfound
  obtain ⟨-, hnames, -, htorn⟩ := hsafe 0 0 2 0 2 3 _ _ _ _
    ((openAt_view ..).mpr hopen) ((behindFile_view ..).trans hbehind) hlost
  exact ⟨⟨fs₁, cache₁⟩, ⟨fs₂, cache₂⟩, hlost, hnames, htorn⟩

end Story

end RxdOs.Fs.PowerLoss
