/- RxdOs/Fs/ZoneMap
   source: fs/fs.c (_reserve_zone, _write)
   digest: What growing, truncating and writing one inode do to its zones and to the zone bitmap. -/

import RxdOs.Fs.Zone

set_option autoImplicit false
set_option relaxedAutoImplicit false

namespace RxdOs.Fs.ZoneMap

open RxdOs.Base.Assert RxdOs.Base.Int32 RxdOs.Fs.Bitmap RxdOs.Fs.Layout RxdOs.Fs.Zone

/-- The first `m` zones of the inode are distinct blocks of its own, the later ones are 0, and
the zone bitmap holds exactly these blocks and the ones in `base`. -/
structure Fits (base : Nat → Prop) (disk : Disk) (inode : Inode) (m : Int) : Prop where
  nonneg : 0 ≤ m
  le : m ≤ 7
  fresh : ∀ k : Fin 9, (k : Int) < m → ¬base (inode.iZone k) ∧ inode.iZone k < sectorBits
  high : ∀ k : Fin 9, m ≤ (k : Int) → inode.iZone k = 0
  inj : ∀ k l : Fin 9, (k : Int) < m → (l : Int) < m → inode.iZone k = inode.iZone l → k = l
  bits : ∀ b < sectorBits, ZoneBit disk b ↔ base b ∨ ∃ k : Fin 9, (k : Int) < m ∧ inode.iZone k = b

variable {base : Nat → Prop} {disk disk' : Disk} {inode inode' : Inode}

theorem zoneBit_update_of_ne {b : Nat} {block : Block} (hb : b ≠ 3) {k : Nat} (hk : k < sectorBits) :
    ZoneBit (Function.update disk b block) k ↔ ZoneBit disk k :=
  zoneBit_congr (Function.update_of_ne hb.symm ..) hk

theorem zoneBit_setBit {b k : Nat} (hb : b < sectorBits) :
    ZoneBit (Function.update disk super.sZmapStart (setBit (disk super.sZmapStart) b)) k ↔
      k = b ∨ ZoneBit disk k := by
  have h := @mapBit_setBit disk super.sZmapStart b k
  rwa [Nat.div_eq_of_lt hb, Nat.mod_eq_of_lt hb, Nat.add_zero] at h

theorem zoneBit_unsetBit {b k : Nat} (hb : b < sectorBits) :
    ZoneBit (Function.update disk super.sZmapStart (unsetBit (disk super.sZmapStart) b)) k ↔
      k ≠ b ∧ ZoneBit disk k := by
  have h := @mapBit_unsetBit disk super.sZmapStart b k
  rwa [Nat.div_eq_of_lt hb, Nat.mod_eq_of_lt hb, Nat.add_zero] at h

/-- Everything _get_blk does, when the metadata area is taken. -/
theorem getBlk_spec (hmeta : ∀ b < super.sDataStart, ZoneBit disk b) {b : Nat}
    (h : getBlk disk = .ok (b, disk')) :
    super.sDataStart ≤ b ∧ b < sectorBits ∧ ¬ZoneBit disk b ∧ disk' b = zeroBlock ∧
      (∀ k < sectorBits, ZoneBit disk' k ↔ k = b ∨ ZoneBit disk k) ∧
      ∀ k, k ≠ 3 → k ≠ b → disk' k = disk k := by
  obtain ⟨hlt, hfree, -, hdisk⟩ := getBlk_ok h
  have hdata : super.sDataStart ≤ b := by
    by_contra hb
    exact hfree (hmeta b (not_le.mp hb))
  have hb3 : b ≠ 3 := by
    simp only [super] at hdata
    omega
  rw [if_pos (by simp only [super] at hdata; omega)] at hdisk
  subst hdisk
  refine ⟨hdata, hlt, hfree, Function.update_self .., fun k hk => ?_, fun k hk3 hkb => ?_⟩
  · rw [zoneBit_update_of_ne hb3 hk, zoneBit_setBit hlt]
  · rw [Function.update_of_ne hkb]
    exact Function.update_of_ne hk3 ..

theorem ofNat_val {cur : Int} (h0 : 0 ≤ cur) (h6 : cur ≤ 6) :
    ((Fin.ofNat 9 cur.toNat : Fin 9) : Int) = cur := by
  rw [Fin.val_ofNat, Nat.mod_eq_of_lt (by omega)]
  exact Int.toNat_of_nonneg h0

theorem eq_ofNat_iff {cur : Int} (h0 : 0 ≤ cur) (h6 : cur ≤ 6) (k : Fin 9) :
    k = Fin.ofNat 9 cur.toNat ↔ (k : Int) = cur := by
  have hval := ofNat_val h0 h6
  rw [Fin.ext_iff]
  omega

/-- Blocks that no growing step touches: neither the map nor a block that was free. -/
def Kept (disk disk' : Disk) : Prop :=
  ∀ b < sectorBits, b ≠ 3 → ZoneBit disk b → disk' b = disk b

theorem Fits.add (hbase : ∀ b < super.sDataStart, base b) {cur : Int}
    (h : Fits base disk inode cur) {b : Nat} (hget : getBlk disk = .ok (b, disk'))
    (hset : setZoneBlk inode cur b = .ok inode') :
    Fits base disk' inode' (cur + 1) ∧ Kept disk disk' ∧ ∀ k < sectorBits, ZoneBit disk k →
      ZoneBit disk' k := by
  have hmeta : ∀ b < super.sDataStart, ZoneBit disk b := fun b hb =>
    (h.bits b (hb.trans (by decide))).mpr (.inl (hbase b hb))
  obtain ⟨hdata, hlt, hfree, -, hbits, hother⟩ := getBlk_spec hmeta hget
  obtain ⟨h0, h6, rfl⟩ := setZoneBlk_ok hset
  have hzone : ∀ k : Fin 9, (if k = Fin.ofNat 9 cur.toNat then b else inode.iZone k) =
      if (k : Int) = cur then b else inode.iZone k := by
    intro k
    simp only [eq_ofNat_iff h0 h6]
  have hbb : ¬base b := fun hb => hfree ((h.bits b hlt).mpr (.inl hb))
  have hnew : ∀ k : Fin 9, (k : Int) < cur → inode.iZone k ≠ b := fun k hk heq =>
    hfree ((h.bits b hlt).mpr (.inr ⟨k, hk, heq⟩))
  refine ⟨⟨by omega, by omega, fun k hk => ?_, fun k hk => ?_, fun k l hk hl heq => ?_,
    fun k hk => ?_⟩, fun k hk hk3 hbit => ?_, fun k hk hbit => (hbits k hk).mpr (.inr hbit)⟩
  · simp only [Function.update_apply, hzone]
    split_ifs with hkc
    · exact ⟨hbb, hlt⟩
    · exact h.fresh k (by omega)
  · simp only [Function.update_apply, hzone]
    rw [if_neg (by omega)]
    exact h.high k (by omega)
  · simp only [Function.update_apply, hzone] at heq
    split_ifs at heq with hkc hlc hlc
    · exact Fin.ext (by omega)
    · exact absurd heq.symm (hnew l (by omega))
    · exact absurd heq (hnew k (by omega))
    · exact h.inj k l (by omega) (by omega) heq
  · simp only [Function.update_apply, hzone]
    rw [hbits k hk, h.bits k hk]
    constructor
    · rintro (rfl | hb | ⟨l, hl, rfl⟩)
      · refine .inr ⟨Fin.ofNat 9 cur.toNat, ?_, ?_⟩
        · rw [ofNat_val h0 h6]
          omega
        · rw [if_pos (ofNat_val h0 h6)]
      · exact .inl hb
      · exact .inr ⟨l, by omega, if_neg (by omega)⟩
    · rintro (hb | ⟨l, hl, hlk⟩)
      · exact .inr (.inl hb)
      · split_ifs at hlk with hlc
        · exact .inl hlk.symm
        · exact .inr (.inr ⟨l, by omega, hlk⟩)
  · exact hother k hk3 fun heq => hfree (heq ▸ hbit)

/-- Fields of the inode other than its zones. -/
def SameButZones (inode inode' : Inode) : Prop := { inode' with iZone := inode.iZone } = inode

theorem SameButZones.refl (inode : Inode) : SameButZones inode inode := rfl

theorem SameButZones.iInum (h : SameButZones inode inode') : inode'.iInum = inode.iInum :=
  (congrArg Inode.iInum h :)

theorem SameButZones.iSize (h : SameButZones inode inode') : inode'.iSize = inode.iSize :=
  (congrArg Inode.iSize h :)

theorem SameButZones.iNlink (h : SameButZones inode inode') : inode'.iNlink = inode.iNlink :=
  (congrArg Inode.iNlink h :)

theorem SameButZones.iRefcnt (h : SameButZones inode inode') : inode'.iRefcnt = inode.iRefcnt :=
  (congrArg Inode.iRefcnt h :)

theorem SameButZones.trans {inode'' : Inode} (h : SameButZones inode inode')
    (h' : SameButZones inode' inode'') : SameButZones inode inode'' := by
  simp only [SameButZones] at *
  rw [← h, ← h']

theorem setZoneBlk_same {zoneNr : Int} {b : Nat} (h : setZoneBlk inode zoneNr b = .ok inode') :
    SameButZones inode inode' := by
  obtain ⟨-, -, rfl⟩ := setZoneBlk_ok h
  rfl

theorem grow_ok (hbase : ∀ b < super.sDataStart, base b) {n : Nat} {cur : Int}
    (h : Fits base disk inode cur) (hgrow : grow n cur disk inode = .ok (disk', inode')) :
    Fits base disk' inode' (cur + n) ∧ Kept disk disk' ∧ SameButZones inode inode' := by
  induction n generalizing cur disk inode with
  | zero =>
    simp only [grow, pure_eq_ok, Except.ok.injEq, Prod.mk.injEq] at hgrow
    obtain ⟨rfl, rfl⟩ := hgrow
    exact ⟨by simpa using h, fun _ _ _ _ => rfl, .refl _⟩
  | succ n ih =>
    simp only [grow, bind_eq_ok] at hgrow
    obtain ⟨⟨b, disk₁⟩, hget, inode₁, hset, hgrow⟩ := hgrow
    obtain ⟨hfits, hkept, hmono⟩ := h.add hbase hget hset
    obtain ⟨hfits', hkept', hsame⟩ := ih hfits hgrow
    refine ⟨?_, fun k hk hk3 hbit => ?_, (setZoneBlk_same hset).trans hsame⟩
    · rw [show cur + ((n + 1 : Nat) : Int) = cur + 1 + n by push_cast; ring]
      exact hfits'
    · rw [hkept' k hk hk3 (hmono k hk hbit), hkept k hk hk3 hbit]

theorem Fits.drop {cur : Int} (h : Fits base disk inode cur) {b : Nat}
    (hget : getZoneBlk inode (cur - 1) = .ok b) (hset : setZoneBlk inode (cur - 1) 0 = .ok inode') (hput : putBlk disk b = .ok disk') :
    Fits base disk' inode' (cur - 1) ∧ ∀ k, k ≠ 3 → disk' k = disk k := by
  obtain ⟨h0, h6, -, rfl⟩ := getZoneBlk_ok hget
  obtain ⟨-, -, rfl⟩ := setZoneBlk_ok hset
  obtain ⟨hlt, rfl⟩ := putBlk_ok hput
  set last : Fin 9 := Fin.ofNat 9 (cur - 1).toNat with hlast
  have hval : (last : Int) = cur - 1 := ofNat_val h0 h6
  have hown := h.fresh last (by omega)
  have hne : ∀ k : Fin 9, (k : Int) < cur - 1 → k ≠ last := fun k hk heq => by
    rw [heq, hval] at hk
    omega
  refine ⟨⟨h0, by have := h.le; omega, fun k hk => ?_, fun k hk => ?_, fun k l hk hl heq => ?_,
    fun k hk => ?_⟩, fun k hk => ?_⟩
  · simp only [Function.update_of_ne (hne k hk)]
    exact h.fresh k (by omega)
  · simp only [Function.update_apply]
    split_ifs with hkl
    · rfl
    · refine h.high k ?_
      have : (k : Int) ≠ cur - 1 := fun heq => hkl (Fin.ext (by omega))
      omega
  · simp only [Function.update_of_ne (hne k hk), Function.update_of_ne (hne l hl)] at heq
    exact h.inj k l (by omega) (by omega) heq
  · rw [zoneBit_unsetBit hlt, h.bits k hk]
    constructor
    · rintro ⟨hkb, hb | ⟨l, hl, rfl⟩⟩
      · exact .inl hb
      · have hll : (l : Int) ≠ cur - 1 := fun heq => hkb (congrArg _ (Fin.ext (by omega)))
        exact .inr ⟨l, by omega, Function.update_of_ne (hne l (by omega)) ..⟩
    · rintro (hb | ⟨l, hl, rfl⟩)
      · exact ⟨fun heq => hown.1 (heq ▸ hb), .inl hb⟩
      · simp only [Function.update_of_ne (hne l hl)]
        exact ⟨fun heq => hne l hl (h.inj l last (by omega) (by omega) heq),
          .inr ⟨l, by omega, rfl⟩⟩
  · exact Function.update_of_ne hk ..

theorem shrink_ok {n : Nat} {cur : Int} (h : Fits base disk inode cur)
    (hshrink : shrink n cur disk inode = .ok (disk', inode')) :
    Fits base disk' inode' (cur - n) ∧ (∀ k, k ≠ 3 → disk' k = disk k) ∧
      SameButZones inode inode' := by
  induction n generalizing cur disk inode with
  | zero =>
    simp only [shrink, pure_eq_ok, Except.ok.injEq, Prod.mk.injEq] at hshrink
    obtain ⟨rfl, rfl⟩ := hshrink
    exact ⟨by simpa using h, fun _ _ => rfl, .refl _⟩
  | succ n ih =>
    simp only [shrink, bind_eq_ok] at hshrink
    obtain ⟨b, hget, inode₁, hset, disk₁, hput, hshrink⟩ := hshrink
    obtain ⟨hfits, hsame₁⟩ := h.drop hget hset hput
    obtain ⟨hfits', hsame₂, hsame⟩ := ih hfits hshrink
    refine ⟨?_, fun k hk => by rw [hsame₂ k hk, hsame₁ k hk], (setZoneBlk_same hset).trans hsame⟩
    rw [show cur - ((n + 1 : Nat) : Int) = cur - 1 - n by push_cast; ring]
    exact hfits'

/-- _reserve_zone brings the inode to `nzone` zones, or leaves it alone when it has more and
may not truncate. -/
theorem reserveZone_ok (hbase : ∀ b < super.sDataStart, base b) {nzone : Int} {truncate : Bool}
    (h : Fits base disk inode (zonesOf inode.iSize))
    (hres : reserveZone disk inode nzone truncate = .ok (disk', inode')) :
    Fits base disk' inode' (if truncate = true then nzone else max (zonesOf inode.iSize) nzone) ∧
      Kept disk disk' ∧ SameButZones inode inode' := by
  simp only [reserveZone, bind_eq_ok, assert_eq_ok] at hres
  obtain ⟨_, -, hres⟩ := hres
  split_ifs at hres with hlt hgt
  · obtain ⟨hfits, hkept, hsame⟩ := grow_ok hbase h hres
    rw [Int.toNat_of_nonneg (by omega), add_sub_cancel] at hfits
    refine ⟨?_, hkept, hsame⟩
    split_ifs
    · exact hfits
    · rwa [max_eq_right hlt.le]
  · obtain ⟨hfits, hkept, hsame⟩ := shrink_ok h hres
    rw [Int.toNat_of_nonneg (by omega), sub_sub_cancel] at hfits
    rw [if_pos hgt.2]
    exact ⟨hfits, fun k _ hk3 _ => hkept k hk3, hsame⟩
  · simp only [pure_eq_ok, Except.ok.injEq, Prod.mk.injEq] at hres
    obtain ⟨rfl, rfl⟩ := hres
    refine ⟨?_, fun _ _ _ _ => rfl, .refl _⟩
    split_ifs with ht
    · have heq : nzone = zonesOf inode.iSize := by
        rw [ht] at hgt
        simp only [and_true] at hgt
        omega
      exact heq ▸ h
    · rwa [max_eq_left (not_lt.mp hlt)]

/-! ## Writing -/

theorem nextBytes_le (left : Nat) : nextBytes left ≤ 1024 := by
  by_cases hbig : left > blockSize
  · rw [nextBytes, if_pos hbig]
    exact (Nat.mod_lt _ (by decide)).le
  · rw [nextBytes, if_neg hbig]
    exact not_lt.mp hbig

/-- No round of _write's loop gets past zone 6, so eight are enough. -/
theorem writeLoop_stable (buf : Nat → UInt8) {fuel : Nat} (hpos : 1 ≤ fuel) {zone : Int}
    (hzone : 8 ≤ zone + fuel) (done left : Nat) (disk : Disk) :
    writeLoop inode buf (fuel + 1) zone done left disk =
      writeLoop inode buf fuel zone done left disk := by
  induction fuel generalizing zone done left disk with
  | zero => omega
  | succ fuel ih =>
    rw [writeLoop]
    conv_rhs => rw [writeLoop]
    split_ifs with hleft
    · cases hget : getZoneBlk inode zone with
      | error e => rfl
      | ok blk =>
        obtain ⟨-, h6, -⟩ := getZoneBlk_ok hget
        exact ih (by omega) (by push_cast at hzone; omega) _ _ _
    · rfl

/-- A loop that ends has written only to zones of the inode, and had at most the blocks up to
zone 6 to write. -/
theorem writeLoop_ok {buf : Nat → UInt8} {fuel : Nat} {zone : Int} {done left : Nat}
    (h : writeLoop inode buf fuel zone done left disk = .ok disk') :
    (∀ b, (∀ k, inode.iZone k ≠ b) → disk' b = disk b) ∧
      (left = 0 ∨ (left : Int) ≤ (7 - zone) * 1024) := by
  induction fuel generalizing zone done left disk with
  | zero => cases h
  | succ fuel ih =>
    rw [writeLoop] at h
    split_ifs at h with hleft
    · rw [bind_eq_ok] at h
      obtain ⟨blk, hget, h⟩ := h
      obtain ⟨-, h6, -, rfl⟩ := getZoneBlk_ok hget
      obtain ⟨hframe, hlen⟩ := ih h
      refine ⟨fun b hb => (hframe b hb).trans (Function.update_of_ne (hb _).symm ..), .inr ?_⟩
      have hbytes := nextBytes_le left
      omega
    · simp only [pure_eq_ok, Except.ok.injEq] at h
      exact ⟨fun b _ => h ▸ rfl, .inl (by omega)⟩

/-- The longest file seven direct zones can hold. -/
def maxSize : Int := 7 * 1024

theorem zonesOf_eq {n : Int} (h0 : 0 ≤ n) (hn : n ≤ maxSize) : zonesOf n = (n + 1023) / 1024 := by
  simp only [maxSize] at hn
  rw [zonesOf, wrap_of_range (by omega) (by omega), Int.tdiv_eq_ediv_of_nonneg (by omega)]

theorem sizeAfter_eq {size pos count : Int} (hs0 : 0 ≤ size) (hs : size ≤ maxSize)
    (h0 : 0 ≤ pos + count) (hn : pos + count ≤ maxSize) :
    sizeAfter size pos count = max size (pos + count) := by
  simp only [maxSize] at hs hn
  rw [sizeAfter, toU32_of_range hs0 (by omega), toU32_of_range h0 (by omega),
    wrap_of_range (by omega) (by omega)]
  split_ifs with hlt
  · exact (max_eq_right hlt.le).symm
  · exact (max_eq_left (not_lt.mp hlt)).symm

theorem zonesOf_max {m n : Int} (hm0 : 0 ≤ m) (hm : m ≤ maxSize) (hn0 : 0 ≤ n) (hn : n ≤ maxSize) :
    zonesOf (max m n) = max (zonesOf m) (zonesOf n) := by
  rw [zonesOf_eq hm0 hm, zonesOf_eq hn0 hn, zonesOf_eq (le_max_of_le_left hm0) (max_le hm hn)]
  simp only [maxSize] at hm hn
  omega

theorem Fits.of_block3 {m : Int} (h : Fits base disk inode m) (h3 : disk' 3 = disk 3)
    (hzone : inode'.iZone = inode.iZone) : Fits base disk' inode' m where
  nonneg := h.nonneg
  le := h.le
  fresh := by rw [hzone]; exact h.fresh
  high := by rw [hzone]; exact h.high
  inj := by rw [hzone]; exact h.inj
  bits b hb := by rw [zoneBit_congr h3 hb, hzone]; exact h.bits b hb

/-- A zone is 0 or lies in the data area. -/
theorem Fits.zone_ne (hbase : ∀ b < super.sDataStart, base b) {m : Int}
    (h : Fits base disk inode m) {b : Nat} (hpos : 0 < b) (hb : b < super.sDataStart)
    (k : Fin 9) : inode.iZone k ≠ b := by
  intro heq
  by_cases hk : (k : Int) < m
  · exact (h.fresh k hk).1 (heq ▸ hbase b hb)
  · rw [h.high k (not_lt.mp hk)] at heq
    omega

/-- A returning _write keeps the zones in order for the new size, and writes to the zone
bitmap, to blocks that were free, to its own zones and to its record only. -/
theorem write_ok (hbase : ∀ b < super.sDataStart, base b) {pos count ret : Int}
    {buf : Nat → UInt8} {ptrs : Pointers} (hs0 : 0 ≤ inode.iSize) (hs : inode.iSize ≤ maxSize)
    (h : Fits base disk inode (zonesOf inode.iSize))
    (hwrite : write disk inode pos buf count ptrs = .ok (ret, disk', inode')) :
    Fits base disk' inode' (zonesOf inode'.iSize) ∧
      (inode'.iSize = max inode.iSize (pos + count) ∧ 0 < pos + count ∧ pos + count ≤ maxSize) ∧
      SameButZones { inode with iSize := inode'.iSize } inode' ∧
      ∀ b < sectorBits, b ≠ 3 → ZoneBit disk b → (∀ k, inode'.iZone k ≠ b) →
        b ≠ inodeBlk inode.iInum → disk' b = disk b := by
  simp only [Zone.write, bind_eq_ok, assert_eq_ok, pure_eq_ok, Except.ok.injEq,
    Prod.mk.injEq] at hwrite
  obtain ⟨_, ⟨hpos, hcount⟩, ⟨disk₁, inode₁⟩, hres, blk, hget, disk₂, hloop, disk₃, hrec,
    -, rfl, rfl⟩ := hwrite
  obtain ⟨hfits, hkept, hsame⟩ := reserveZone_ok hbase h hres
  rw [if_neg (by simp)] at hfits
  obtain ⟨hz0, hz6, -, rfl⟩ := getZoneBlk_ok hget
  obtain ⟨hframe, hleft⟩ := writeLoop_ok hloop
  -- all of the data fits below zone 7
  have hend : pos + count ≤ maxSize := by
    simp only [maxSize, blockSize] at hleft ⊢
    omega
  have hsize : sizeAfter inode₁.iSize pos count = max inode.iSize (pos + count) := by
    rw [hsame.iSize, sizeAfter_eq hs0 hs (by omega) hend]
  have hbelow : ∀ b, 0 < b → b < super.sDataStart → ∀ k, inode₁.iZone k ≠ b := fun b hb hd =>
    hfits.zone_ne hbase hb hd
  have hstep : ∀ b, (∀ k, inode₁.iZone k ≠ b) → disk₂ b = disk₁ b := fun b hb =>
    (hframe b hb).trans (Function.update_of_ne (hb _).symm ..)
  obtain ⟨-, -, -, rfl⟩ := writeInode_ok hrec
  have hblk : inodeBlk inode₁.iInum ≠ 3 := by
    have hle : super.sItableStart ≤ inodeBlk inode₁.iInum := Nat.le_add_left _ _
    simp only [super] at hle
    omega
  refine ⟨?_, ⟨hsize, by omega, hend⟩, ?_, fun b hb hb3 hbit hzone hrec => ?_⟩
  · refine @Fits.of_block3 _ disk₁ _ inode₁ _ _ ?_ ?_ rfl
    · rw [hsize, zonesOf_max hs0 hs (by omega) hend]
      exact hfits
    · rw [Function.update_of_ne hblk.symm]
      exact hstep 3 (hbelow 3 (by decide) (by decide))
  · simp only [SameButZones] at hsame ⊢
    rw [← hsame]
  · rw [Function.update_of_ne (by rw [hsame.iInum]; exact hrec), hstep b hzone]
    exact hkept b hb hb3 hbit

/-- Its last step is the write_inode of what it returns. -/
theorem write_record (hbase : ∀ b < super.sDataStart, base b) {pos count ret : Int}
    {buf : Nat → UInt8} {ptrs : Pointers} (h : Fits base disk inode (zonesOf inode.iSize))
    (hwrite : write disk inode pos buf count ptrs = .ok (ret, disk', inode')) :
    ∃ disk₂, writeInode disk₂ inode' ptrs = .ok disk' ∧
      ∀ b < sectorBits, b ≠ 3 → ZoneBit disk b → (∀ k, inode'.iZone k ≠ b) → disk₂ b = disk b := by
  simp only [Zone.write, bind_eq_ok, assert_eq_ok, pure_eq_ok, Except.ok.injEq,
    Prod.mk.injEq] at hwrite
  obtain ⟨_, -, ⟨disk₁, inode₁⟩, hres, blk, hget, disk₂, hloop, disk₃, hrec, -, rfl, rfl⟩ := hwrite
  obtain ⟨-, hkept, -⟩ := reserveZone_ok hbase h hres
  obtain ⟨-, -, -, rfl⟩ := getZoneBlk_ok hget
  refine ⟨disk₂, hrec, fun b hb hb3 hbit hzone => ?_⟩
  have hloopFrame := (writeLoop_ok hloop).1 b hzone
  rw [hloopFrame, Function.update_of_ne (hzone _).symm]
  exact hkept b hb hb3 hbit

end RxdOs.Fs.ZoneMap
