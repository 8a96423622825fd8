/- RxdOs/Fs/FileBytes
   source: fs/fs.c (_read, _write, _reserve_zone)
   digest: A file as a sequence of bytes, and what a read or a write inside one block does to it. -/

import RxdOs.Fs.ZoneMap

set_option autoImplicit false
set_option relaxedAutoImplicit false

namespace RxdOs.Fs.FileBytes

open RxdOs.Base.Assert RxdOs.Base.Int32 RxdOs.Fs.Bitmap RxdOs.Fs.Layout RxdOs.Fs.Zone
  RxdOs.Fs.ZoneMap

/-- The byte at position `x` of a file. -/
def fileByte (disk : Disk) (inode : Inode) (x : Nat) : UInt8 :=
  byteAt (disk (inode.iZone (Fin.ofNat 9 (x / 1024)))) (x % 1024)

variable {base : Nat → Prop} {disk disk' : Disk} {inode inode' : Inode}

theorem zone_val {x : Nat} (hx : (x : Int) < maxSize) :
    ((Fin.ofNat 9 (x / 1024) : Fin 9) : Nat) = x / 1024 := by
  simp only [maxSize] at hx
  rw [Fin.val_ofNat, Nat.mod_eq_of_lt (by omega)]

theorem fileByte_congr {x : Nat} (h : disk' (inode'.iZone (Fin.ofNat 9 (x / 1024))) =
    disk (inode.iZone (Fin.ofNat 9 (x / 1024)))) :
    fileByte disk' inode' x = fileByte disk inode x := by
  rw [fileByte, fileByte, h]

/-! ## Growing -/

/-- New zones are zeroed, and the old ones stay with what they hold. -/
theorem grow_zones (hbase : ∀ b < super.sDataStart, base b) {n : Nat} {cur : Int}
    (h : Fits base disk inode cur) (hgrow : grow n cur disk inode = .ok (disk', inode')) :
    (∀ k : Fin 9, (k : Int) < cur → inode'.iZone k = inode.iZone k ∧
        disk' (inode.iZone k) = disk (inode.iZone k)) ∧
      ∀ k : Fin 9, cur ≤ (k : Int) → (k : Int) < cur + n → disk' (inode'.iZone k) = zeroBlock := by
  induction n generalizing cur disk inode with
  | zero =>
    simp only [grow, pure_eq_ok, Except.ok.injEq, Prod.mk.injEq] at hgrow
    obtain ⟨rfl, rfl⟩ := hgrow
    refine ⟨fun _ _ => ⟨rfl, rfl⟩, fun k hle hlt => ?_⟩
    push_cast at hlt
    omega
  | succ n ih =>
    simp only [grow, bind_eq_ok] at hgrow
    obtain ⟨⟨b, disk₁⟩, hget, inode₁, hset, hgrow⟩ := hgrow
    obtain ⟨hfits, -, -⟩ := h.add hbase hget hset
    have hmeta : ∀ b < super.sDataStart, ZoneBit disk b := fun b hb =>
      (h.bits b (hb.trans (by decide))).mpr (.inl (hbase b hb))
    obtain ⟨-, hlt, hfree, hzero, -, hother⟩ := getBlk_spec hmeta hget
    obtain ⟨h0, h6, rfl⟩ := setZoneBlk_ok hset
    obtain ⟨hold, hnew⟩ := ih hfits hgrow
    refine ⟨fun k hk => ?_, fun k hle hk => ?_⟩
    · have hkc : k ≠ Fin.ofNat 9 cur.toNat := fun heq => by
        have := (eq_ofNat_iff h0 h6 k).mp heq
        omega
      obtain ⟨hzone, hblock⟩ := hold k (by omega)
      simp only [Function.update_of_ne hkc] at hzone hblock
      obtain ⟨hnot, hsmall⟩ := h.fresh k hk
      refine ⟨hzone, hblock.trans (hother _ (fun heq => hnot ?_) fun heq => hfree ?_)⟩
      · rw [heq]
        exact hbase 3 (by decide)
      · rw [← heq]
        exact (h.bits _ hsmall).mpr (.inr ⟨k, hk, rfl⟩)
    · by_cases hkc : (k : Int) = cur
      · have hself := (eq_ofNat_iff h0 h6 k).mpr hkc
        obtain ⟨hzone, hblock⟩ := hold k (by omega)
        subst hself
        simp only [Function.update_self] at hzone hblock
        rw [hzone, hblock, hzero]
      · refine hnew k (by omega) ?_
        push_cast at hk
        omega

/-- _reserve_zone that may only grow. -/
theorem reserveZone_zones (hbase : ∀ b < super.sDataStart, base b) {nzone : Int}
    (h : Fits base disk inode (zonesOf inode.iSize))
    (hres : reserveZone disk inode nzone false = .ok (disk', inode')) :
    (∀ k : Fin 9, (k : Int) < zonesOf inode.iSize → inode'.iZone k = inode.iZone k ∧
        disk' (inode.iZone k) = disk (inode.iZone k)) ∧
      ∀ k : Fin 9, zonesOf inode.iSize ≤ (k : Int) → (k : Int) < nzone →
        disk' (inode'.iZone k) = zeroBlock := by
  simp only [reserveZone, bind_eq_ok, assert_eq_ok] at hres
  obtain ⟨_, -, hres⟩ := hres
  split_ifs at hres with hlt hgt
  · obtain ⟨hold, hnew⟩ := grow_zones hbase h hres
    rw [Int.toNat_of_nonneg (by omega), add_sub_cancel] at hnew
    exact ⟨hold, hnew⟩
  · exact absurd hgt.2 (by decide)
  · simp only [pure_eq_ok, Except.ok.injEq, Prod.mk.injEq] at hres
    obtain ⟨rfl, rfl⟩ := hres
    refine ⟨fun _ _ => ⟨rfl, rfl⟩, fun k hle hk => ?_⟩
    omega

/-! ## Writing inside one block -/

theorem byteAt_store {block : Block} {off n i : Nat} {src : Nat → UInt8} (hi : i < 1024) :
    byteAt (store block off n src) i =
      if off ≤ i ∧ i < off + n then src (i - off) else byteAt block i := by
  rw [byteAt, dif_pos hi, byteAt, dif_pos hi, store]

theorem writeLoop_zero {buf : Nat → UInt8} {zone : Int} {done : Nat} :
    writeLoop inode buf 8 zone done 0 disk = .ok disk := by
  rw [writeLoop, if_neg (lt_irrefl 0)]
  rfl

/-- The block of the inode's record belongs to nobody's data. -/
theorem Fits.zone_ne_record {m : Int} (h : Fits base disk inode m)
    (hrecord : base (inodeBlk inode.iInum)) {k : Fin 9} (hk : (k : Int) < m) :
    inode.iZone k ≠ inodeBlk inode.iInum := by
  intro heq
  exact (h.fresh k hk).1 (heq ▸ hrecord)

/-- The parts of a _write inside one block: zones, the data, the size and the record. -/
theorem write_block {pos count : Nat} {ret : Int} {buf : Nat → UInt8} {ptrs : Pointers}
    (hblock : pos % 1024 + count ≤ 1024)
    (hwrite : write disk inode pos buf count ptrs = .ok (ret, disk', inode')) :
    ret = count ∧ 0 < count ∧ pos / 1024 ≤ 6 ∧ ∃ disk₁ inode₁,
      reserveZone disk inode (zonesOf (pos + count)) false = .ok (disk₁, inode₁) ∧
      inode' = { inode₁ with iSize := sizeAfter inode₁.iSize pos count } ∧
      ∃ block, disk' = Function.update (Function.update disk₁
        (inode₁.iZone (Fin.ofNat 9 (pos / 1024)))
        (store (disk₁ (inode₁.iZone (Fin.ofNat 9 (pos / 1024)))) (pos % 1024) count buf))
        (inodeBlk inode₁.iInum) block := by
  simp only [Zone.write, bind_eq_ok, assert_eq_ok, pure_eq_ok, Except.ok.injEq,
    Prod.mk.injEq] at hwrite
  obtain ⟨_, ⟨-, hcount⟩, ⟨disk₁, inode₁⟩, hres, blk, hget, disk₂, hloop, disk₃, hrec, hret, rfl,
    rfl⟩ := hwrite
  obtain ⟨-, hz6, -, rfl⟩ := getZoneBlk_ok hget
  obtain ⟨-, -, -, hdisk⟩ := writeInode_ok hrec
  have hoff : ((pos : Int) % 1024).toNat = pos % 1024 := by omega
  have hzone : ((pos : Int) / 1024).toNat = pos / 1024 := by omega
  have hbytes : min (count : Int).toNat (blockSize - ((pos : Int) % 1024).toNat) = count := by
    rw [hoff, Int.toNat_natCast, blockSize]
    omega
  rw [hbytes, Int.toNat_natCast, Nat.sub_self, writeLoop_zero, hoff, hzone] at hloop
  obtain rfl := Except.ok.inj hloop
  exact ⟨hret.symm, by omega, by omega, disk₁, inode₁, hres, rfl, _, hdisk⟩

/-- What the zones hold after the growing part of a _write. -/
theorem grown_bytes (hbase : ∀ b < super.sDataStart, base b) {nzone : Int}
    (h : Fits base disk inode (zonesOf inode.iSize))
    (hres : reserveZone disk inode nzone false = .ok (disk', inode')) {k : Fin 9}
    (hk : (k : Int) < max (zonesOf inode.iSize) nzone) (i : Nat) :
    byteAt (disk' (inode'.iZone k)) i =
      if (k : Int) < zonesOf inode.iSize then byteAt (disk (inode.iZone k)) i else 0 := by
  obtain ⟨hold, hnew⟩ := reserveZone_zones hbase h hres
  split_ifs with hlt
  · obtain ⟨hzone, hblk⟩ := hold k hlt
    rw [hzone, hblk]
  · rw [hnew k (by omega) (by omega)]
    simp [byteAt, zeroBlock]

/-- A _write inside one block changes the bytes it writes; zones that it adds are zero. -/
theorem write_bytes (hbase : ∀ b < super.sDataStart, base b)
    (hs0 : 0 ≤ inode.iSize) (hs : inode.iSize ≤ maxSize)
    (h : Fits base disk inode (zonesOf inode.iSize)) (hrecord : base (inodeBlk inode.iInum))
    {pos count : Nat} {ret : Int} {buf : Nat → UInt8} {ptrs : Pointers}
    (hblock : pos % 1024 + count ≤ 1024)
    (hwrite : write disk inode pos buf count ptrs = .ok (ret, disk', inode')) {x : Nat}
    (hx : (x : Int) < 1024 * zonesOf inode'.iSize) :
    fileByte disk' inode' x =
      if pos ≤ x ∧ x < pos + count then buf (x - pos)
      else if (x : Int) < 1024 * zonesOf inode.iSize then fileByte disk inode x else 0 := by
  obtain ⟨-, ⟨hsize, hpos0, hend⟩, -, -⟩ := write_ok hbase hs0 hs h hwrite
  rw [hsize, zonesOf_max hs0 hs hpos0.le hend] at hx
  obtain ⟨-, hcount, hp6, disk₁, inode₁, hres, rfl, block, rfl⟩ := write_block hblock hwrite
  obtain ⟨hfits, -, hsame⟩ := reserveZone_ok hbase h hres
  rw [if_neg Bool.false_ne_true] at hfits
  have hk : ((Fin.ofNat 9 (x / 1024) : Fin 9) : Nat) = x / 1024 := by
    have hle := hfits.le
    refine zone_val ?_
    simp only [maxSize]
    omega
  have hkm : ((Fin.ofNat 9 (x / 1024) : Fin 9) : Int) <
      max (zonesOf inode.iSize) (zonesOf (pos + count)) := by
    omega
  have hbefore := grown_bytes hbase h hres hkm (x % 1024)
  have hrec : inode₁.iZone (Fin.ofNat 9 (x / 1024)) ≠ inodeBlk inode₁.iInum :=
    Fits.zone_ne_record hfits (hsame.iInum ▸ hrecord) hkm
  have hlt : ((Fin.ofNat 9 (x / 1024) : Fin 9) : Int) < zonesOf inode.iSize ↔
      (x : Int) < 1024 * zonesOf inode.iSize := by omega
  simp only [hlt] at hbefore
  simp only [fileByte, Function.update_of_ne hrec]
  by_cases hzone : x / 1024 = pos / 1024
  · have hiff : pos % 1024 ≤ x % 1024 ∧ x % 1024 < pos % 1024 + count ↔
        pos ≤ x ∧ x < pos + count := by omega
    have hsub : x % 1024 - pos % 1024 = x - pos := by omega
    rw [← hzone, Function.update_self, byteAt_store (Nat.mod_lt _ (by decide)), hbefore]
    simp only [hiff, hsub]
  · have hpk : ((Fin.ofNat 9 (pos / 1024) : Fin 9) : Nat) = pos / 1024 := by
      refine zone_val ?_
      simp only [maxSize]
      omega
    have hne : inode₁.iZone (Fin.ofNat 9 (x / 1024)) ≠ inode₁.iZone (Fin.ofNat 9 (pos / 1024)) := by
      intro heq
      have hpz : ((Fin.ofNat 9 (pos / 1024) : Fin 9) : Int) < zonesOf (pos + count) := by
        rw [zonesOf_eq hpos0.le hend]
        omega
      have hval := congrArg Fin.val (hfits.inj _ _ hkm (lt_max_of_lt_right hpz) heq)
      rw [hk, hpk] at hval
      exact hzone hval
    have hout : ¬(pos ≤ x ∧ x < pos + count) := by omega
    rw [Function.update_of_ne hne, hbefore, if_neg hout]

/-! ## Reading inside one block -/

theorem readLoop_zero {zone : Int} {done : Nat} {buf : Nat → UInt8} :
    readLoop disk inode 8 zone done 0 buf = .ok buf := by
  rw [readLoop, if_neg (lt_irrefl 0)]
  rfl

theorem setZoneBlk_of_range {zone : Int} (h0 : 0 ≤ zone) (h6 : zone ≤ 6) (b : Nat) :
    setZoneBlk inode zone b = .ok { inode with
      iZone := Function.update inode.iZone (Fin.ofNat 9 zone.toNat) b } := by
  have hrange : zoneRange zone := ⟨h0, by omega⟩
  rw [setZoneBlk, assert_pos hrange, ok_bind, if_neg (by omega)]
  rfl

theorem getZoneBlk_of_range {zone : Int} (h0 : 0 ≤ zone) (h6 : zone ≤ 6)
    (hsize : zone ≤ zonesOf inode.iSize) :
    getZoneBlk inode zone = .ok (inode.iZone (Fin.ofNat 9 zone.toNat)) := by
  have hrange : zoneRange zone := ⟨h0, by omega⟩
  rw [getZoneBlk, assert_pos hrange, ok_bind, if_neg (by omega), if_neg (by omega)]
  rfl

/-- A zone below the end of the file. -/
theorem getZoneBlk_of_lt {x : Nat} (hx : (x : Int) < inode.iSize) (hs : inode.iSize ≤ maxSize) :
    getZoneBlk inode (x / 1024) = .ok (inode.iZone (Fin.ofNat 9 (x / 1024))) := by
  have hzones := zonesOf_eq (by omega) hs
  simp only [maxSize] at hs
  have hnat : ((x : Int) / 1024).toNat = x / 1024 := by omega
  rw [getZoneBlk_of_range (by omega) (by omega) (by omega), hnat]

/-- A _read inside one block returns the bytes of the file. -/
theorem read_bytes {pos count : Nat} {buf : Nat → UInt8} (hcount : 0 < count)
    (hblock : pos % 1024 + count ≤ 1024) (hend : ((pos + count : Nat) : Int) ≤ inode.iSize)
    (hs : inode.iSize ≤ maxSize) : read disk inode pos buf count =
      .ok (count, fun i => if i < count then fileByte disk inode (pos + i) else buf i) := by
  have hblk := @getZoneBlk_of_lt inode pos (by omega) hs
  simp only [maxSize] at hs
  push_cast at hend
  have hwrap : wrap (pos + count) = pos + count := wrap_of_range (by omega) (by omega)
  have hoff : ((pos : Int) % 1024).toNat = pos % 1024 := by omega
  have hbytes : min count (blockSize - pos % 1024) = count := by
    rw [blockSize]
    omega
  have hargs : (pos : Int) ≥ 0 ∧ (count : Int) ≥ 0 := ⟨by omega, by omega⟩
  rw [Zone.read, assert_pos hargs, ok_bind, hwrap, if_neg (by omega)]
  simp only [hblk, ok_bind, Int.toNat_natCast, hoff, hbytes, Nat.sub_self, readLoop_zero, pure_eq_ok,
    Except.ok.injEq, Prod.mk.injEq, true_and]
  funext i
  by_cases hi : i < count
  · have hdiv : (pos + i) / 1024 = pos / 1024 := by omega
    have hmod : (pos + i) % 1024 = pos % 1024 + i := by omega
    rw [if_pos hi, if_pos hi, fileByte, hdiv, hmod]
  · rw [if_neg hi, if_neg hi]

/-- A _read past the end returns nothing. -/
theorem read_past {pos count : Nat} {buf : Nat → UInt8}
    (hend : inode.iSize < ((pos + count : Nat) : Int)) (hsmall : pos + count < 2 ^ 31) :
    read disk inode pos buf count = .ok (-1, buf) := by
  push_cast at hend
  have hwrap : wrap (pos + count) = pos + count := wrap_of_range (by omega) (by omega)
  have hargs : (pos : Int) ≥ 0 ∧ (count : Int) ≥ 0 := ⟨by omega, by omega⟩
  rw [Zone.read, assert_pos hargs, ok_bind, hwrap, if_pos hend]
  rfl

/-! ## When a write stops -/

def mapFull : Halt := .panic "_bitmap_alloc: map is full"

/-- _get_blk stops only when no block is free. -/
theorem getBlk_total (disk : Disk) : (∃ r, getBlk disk = .ok r) ∨
    (∀ b < sectorBits, ZoneBit disk b) ∧ getBlk disk = .error mapFull := by
  by_cases hfree : ∃ b < sectorBits, ¬ZoneBit disk b
  · obtain ⟨b, hb, hzero⟩ := hfree
    left
    have hlt : b < super.sZmapCount * sectorBits := by simpa [super] using hb
    obtain ⟨⟨k, disk₁⟩, halloc⟩ := @bitmapAlloc_of_free disk super.sZmapCount super.sZmapStart 0 b
      hlt hzero
    by_cases hk : k ≠ 0
    · exact ⟨_, by rw [getBlk, halloc, ok_bind]; exact if_pos hk⟩
    · exact ⟨_, by rw [getBlk, halloc, ok_bind]; exact if_neg hk⟩
  · push Not at hfree
    right
    refine ⟨hfree, ?_⟩
    have hnone : findFirstZero (disk super.sZmapStart) sectorSize = none := by
      cases hfind : findFirstZero (disk super.sZmapStart) sectorSize with
      | none => rfl
      | some k =>
        obtain ⟨hlt, hzero, -⟩ := findFirstZero_some hfind
        have hk : k < sectorBits := by
          simp only [sectorSize, sectorBits] at hlt ⊢
          omega
        have hbit := hfree k hk
        rw [ZoneBit, MapBit, Nat.div_eq_of_lt hk, Nat.mod_eq_of_lt hk] at hbit
        exact absurd hbit hzero
    show getBlk disk = _
    rw [getBlk, show super.sZmapCount = 0 + 1 from rfl, bitmapAlloc, hnone]
    rfl

/-- _reserve_zone of one zone more at most stops only on a full disk. -/
theorem reserveZone_total (hinum : inode.iInum ≠ 0) {nzone : Int} (h0 : 0 ≤ zonesOf inode.iSize)
    (h7 : nzone ≤ 7) (hone : nzone ≤ zonesOf inode.iSize + 1) :
    (∃ r, reserveZone disk inode nzone false = .ok r) ∨
      (∀ b < sectorBits, ZoneBit disk b) ∧
        reserveZone disk inode nzone false = .error mapFull := by
  have hassert : inode.iInum ≥ 1 := Nat.one_le_iff_ne_zero.mpr hinum
  rw [reserveZone, assert_pos hassert, ok_bind]
  by_cases hlt : zonesOf inode.iSize < nzone
  · have hn : (nzone - zonesOf inode.iSize).toNat = 0 + 1 := by omega
    simp only [if_pos hlt, hn, grow]
    rcases getBlk_total disk with ⟨⟨b, disk₁⟩, hget⟩ | ⟨hfull, hget⟩
    · left
      have hset := @setZoneBlk_of_range inode _ h0 (by omega) b
      exact ⟨(disk₁, _), by rw [hget, ok_bind, hset]; rfl⟩
    · exact .inr ⟨hfull, by rw [hget]; rfl⟩
  · left
    refine ⟨(disk, inode), ?_⟩
    simp only [if_neg hlt, Bool.false_eq_true, and_false, if_false]
    rfl

/-- A _write inside one block that needs one zone more at most stops only on a full disk. -/
theorem write_total (hbase : ∀ b < super.sDataStart, base b)
    (h : Fits base disk inode (zonesOf inode.iSize))
    (hinum : inode.iInum ≠ 0 ∧ inode.iInum < sectorBits ∧ InodeBit disk inode.iInum)
    {pos count : Nat} (hcount : 0 < count) (hblock : pos % 1024 + count ≤ 1024)
    (hend : (pos : Int) + count ≤ maxSize)
    (hone : zonesOf (pos + count) ≤ zonesOf inode.iSize + 1) (buf : Nat → UInt8)
    (ptrs : Pointers) : (∃ r, write disk inode pos buf count ptrs = .ok r) ∨
      (∀ b < sectorBits, ZoneBit disk b) ∧
        write disk inode pos buf count ptrs = .error mapFull := by
  have hargs : (pos : Int) ≥ 0 ∧ (count : Int) > 0 := ⟨by omega, by omega⟩
  have hnew : zonesOf (pos + count) = ((pos + count : Nat) + 1023 : Int) / 1024 := by
    rw [zonesOf_eq (by omega) hend]
    push_cast
    rfl
  have h7 : zonesOf (pos + count) ≤ 7 := by
    rw [hnew]
    simp only [maxSize] at hend
    omega
  rcases @reserveZone_total disk inode hinum.1 _ h.nonneg h7 hone with
    ⟨⟨disk₁, inode₁⟩, hres⟩ | ⟨hfull, hres⟩
  · left
    obtain ⟨hfits, hkept, hsame⟩ := reserveZone_ok hbase h hres
    have hbytes : min (count : Int).toNat (blockSize - ((pos : Int) % 1024).toNat) = count := by
      rw [Int.toNat_natCast, blockSize]
      omega
    have hget := @getZoneBlk_of_range inode₁ ((pos : Int) / 1024) (by omega) (by omega)
      (by rw [hsame.iSize]; omega)
    have h2 : InodeBit disk₁ inode₁.iInum := by
      have hmeta : ZoneBit disk 2 := (h.bits 2 (by decide)).mpr (.inl (hbase 2 (by decide)))
      rw [hsame.iInum, inodeBit_congr (hkept 2 (by decide) (by decide) hmeta) hinum.2.1]
      exact hinum.2.2
    generalize hblk : inode₁.iZone (Fin.ofNat 9 ((pos : Int) / 1024).toNat) = blk at hget
    have hne : (2 : Nat) ≠ blk := fun heq =>
      hfits.zone_ne hbase (by decide) (by decide) _ (hblk.trans heq.symm)
    have hbit : InodeBit (Function.update disk₁ blk
        (store (disk₁ blk) ((pos : Int) % 1024).toNat count buf)) inode₁.iInum := by
      rw [inodeBit_congr (Function.update_of_ne hne ..) (hsame.iInum ▸ hinum.2.1)]
      exact h2
    obtain ⟨disk₂, hrec⟩ := @writeInode_of_bit _ { inode₁ with
      iSize := sizeAfter inode₁.iSize pos count } ptrs (hsame.iInum ▸ hinum.1)
      (hsame.iInum ▸ hinum.2.1) hbit
    refine ⟨(count, disk₂, { inode₁ with iSize := sizeAfter inode₁.iSize pos count }), ?_⟩
    simp only [Zone.write, bind_eq_ok, assert_eq_ok, pure_eq_ok, Except.ok.injEq, Prod.mk.injEq,
      hbytes]
    refine ⟨(), hargs, (disk₁, inode₁), hres, blk, hget, _, ?_, disk₂, hrec, trivial, rfl, rfl⟩
    rw [Int.toNat_natCast, Nat.sub_self]
    exact writeLoop_zero
  · right
    refine ⟨hfull, ?_⟩
    rw [Zone.write, bind_eq_error]
    exact .inr ⟨(), assert_pos hargs _, bind_eq_error.mpr (.inl hres)⟩

end RxdOs.Fs.FileBytes
