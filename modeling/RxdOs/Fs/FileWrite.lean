/- RxdOs/Fs/FileWrite
   source: fs/fs.c (_reserve_zone, _write)
   digest: Writes of any length against the bytes of the file: growing by several zones, and
   where the loop puts the bytes left after the first block. -/

import RxdOs.Fs.FileRead

set_option autoImplicit false
set_option relaxedAutoImplicit false

namespace RxdOs.Fs.FileWrite

open RxdOs.Base.Assert RxdOs.Base.Int32 RxdOs.Fs.Bitmap RxdOs.Fs.Layout RxdOs.Fs.Zone
  RxdOs.Fs.ZoneMap RxdOs.Fs.FileBytes RxdOs.Fs.FileRead

/-- At least `n` blocks are free. -/
def Room (disk : Disk) (n : Nat) : Prop :=
  ∃ s : Finset Nat, n ≤ s.card ∧ ∀ b ∈ s, b < sectorBits ∧ ¬ZoneBit disk b

/-- The blocks in front of the data area are marked, as mkfs leaves them. -/
def Reserved (disk : Disk) : Prop := ∀ b < super.sDataStart, ZoneBit disk b

variable {disk disk' : Disk} {inode inode' : Inode} {pos count : Nat}

/-! ## Growing by several zones -/

/-- _get_blk with room: a free data block is taken and zeroed, the others stay. -/
theorem getBlk_of_room {n : Nat} (hmeta : Reserved disk) (hroom : Room disk (n + 1)) :
    ∃ b disk', getBlk disk = .ok (b, disk') ∧ Reserved disk' ∧ Room disk' n := by
  obtain ⟨s, hcard, hfree⟩ := hroom
  have hne : s.Nonempty := Finset.card_pos.mp (Nat.lt_of_lt_of_le (Nat.succ_pos n) hcard)
  obtain ⟨a, ha⟩ := hne
  rcases getBlk_total disk with ⟨⟨b, disk'⟩, hget⟩ | ⟨hfull, -⟩
  · obtain ⟨hdata, hlt, -, -, hbits, -⟩ := getBlk_spec hmeta hget
    refine ⟨b, disk', hget, fun k hk => ?_, s.erase b, ?_, fun k hk => ?_⟩
    · have hsmall : k < sectorBits := hk.trans (by decide)
      exact (hbits k hsmall).mpr (.inr (hmeta k hk))
    · have hle := Finset.pred_card_le_card_erase (s := s) (a := b)
      omega
    · obtain ⟨hkb, hks⟩ := Finset.mem_erase.mp hk
      obtain ⟨hsmall, hbit⟩ := hfree k hks
      refine ⟨hsmall, fun hset => ?_⟩
      exact ((hbits k hsmall).mp hset).elim hkb hbit
  · exact absurd (hfull a (hfree a ha).1) (hfree a ha).2

/-- What growing from zone `cur` to zone `m` does: the new zones are zeroed blocks that were
free, everything that was taken stays. -/
structure Grown (disk : Disk) (inode : Inode) (cur m : Int) (disk' : Disk) (inode' : Inode) :
    Prop where
  same : SameButZones inode inode'
  old : ∀ k : Fin 9, (k : Int) < cur → inode'.iZone k = inode.iZone k
  later : ∀ k : Fin 9, m ≤ (k : Int) → inode'.iZone k = inode.iZone k
  fresh : ∀ k : Fin 9, cur ≤ (k : Int) → (k : Int) < m → ¬ZoneBit disk (inode'.iZone k) ∧
    super.sDataStart ≤ inode'.iZone k ∧ inode'.iZone k < sectorBits ∧
    disk' (inode'.iZone k) = zeroBlock
  apart : ∀ k l : Fin 9, cur ≤ (k : Int) → (k : Int) < m → cur ≤ (l : Int) → (l : Int) < m →
    inode'.iZone k = inode'.iZone l → k = l
  kept : ∀ b < sectorBits, b ≠ 3 → ZoneBit disk b → disk' b = disk b
  bits : ∀ b < sectorBits, ZoneBit disk' b ↔
    ZoneBit disk b ∨ ∃ k : Fin 9, cur ≤ (k : Int) ∧ (k : Int) < m ∧ inode'.iZone k = b

theorem Grown.refl {cur m : Int} (h : m ≤ cur) : Grown disk inode cur m disk inode where
  same := .refl _
  old _ _ := rfl
  later _ _ := rfl
  fresh k hle hlt := by omega
  apart k l hle hlt := by omega
  kept _ _ _ _ := rfl
  bits b _ := by
    refine ⟨.inl, fun hb => hb.resolve_right ?_⟩
    rintro ⟨k, hle, hlt, -⟩
    omega

/-- One round of the loop, and then the others. -/
theorem Grown.cons (hmeta : Reserved disk) {cur m : Int} {b : Nat} {disk₁ : Disk}
    (h0 : 0 ≤ cur) (h6 : cur ≤ 6) (hm : cur < m) (hget : getBlk disk = .ok (b, disk₁))
    (h : Grown disk₁ { inode with iZone := Function.update inode.iZone (Fin.ofNat 9 cur.toNat) b }
      (cur + 1) m disk' inode') : Grown disk inode cur m disk' inode' := by
  obtain ⟨hdata, hlt, hfree, hzero, hbits, hother⟩ := getBlk_spec hmeta hget
  have hself : inode'.iZone (Fin.ofNat 9 cur.toNat) = b := by
    rw [h.old _ (by rw [ofNat_val h0 h6]; omega)]
    exact Function.update_self ..
  have hcur : ∀ k : Fin 9, (k : Int) = cur → inode'.iZone k = b := fun k hk => by
    rw [(eq_ofNat_iff h0 h6 k).mpr hk, hself]
  have hb3 : b ≠ 3 := by
    simp only [super] at hdata
    omega
  have hlater : ∀ k : Fin 9, cur + 1 ≤ (k : Int) → (k : Int) < m →
      ¬ZoneBit disk (inode'.iZone k) ∧ inode'.iZone k ≠ b := by
    intro k hle hk
    obtain ⟨hbit, -, hsmall, -⟩ := h.fresh k hle hk
    rw [hbits _ hsmall, not_or] at hbit
    exact ⟨hbit.2, hbit.1⟩
  refine ⟨?_, fun k hk => ?_, fun k hk => ?_, fun k hle hk => ?_, fun k l hk hkm hl hlm heq => ?_,
    fun k hk hk3 hbit => ?_, fun k hk => ?_⟩
  · have hsame := h.same
    simp only [SameButZones] at hsame ⊢
    have hzones := congrArg (fun i : Inode => { i with iZone := inode.iZone }) hsame
    exact hzones
  · rw [h.old k (by omega)]
    refine Function.update_of_ne (fun heq => ?_) ..
    have hval := (eq_ofNat_iff h0 h6 k).mp heq
    omega
  · rw [h.later k hk]
    refine Function.update_of_ne (fun heq => ?_) ..
    have hval := (eq_ofNat_iff h0 h6 k).mp heq
    omega
  · by_cases hkc : (k : Int) = cur
    · rw [hcur k hkc]
      refine ⟨hfree, hdata, hlt, ?_⟩
      rw [h.kept b hlt hb3 ((hbits b hlt).mpr (.inl rfl)), hzero]
    · obtain ⟨-, hrest⟩ := h.fresh k (by omega) hk
      exact ⟨(hlater k (by omega) hk).1, hrest⟩
  · by_cases hkc : (k : Int) = cur
    · by_cases hlc : (l : Int) = cur
      · exact Fin.ext (by omega)
      · rw [hcur k hkc] at heq
        exact absurd heq.symm (hlater l (by omega) hlm).2
    · by_cases hlc : (l : Int) = cur
      · rw [hcur l hlc] at heq
        exact absurd heq (hlater k (by omega) hkm).2
      · exact h.apart k l (by omega) hkm (by omega) hlm heq
  · rw [h.kept k hk hk3 ((hbits k hk).mpr (.inr hbit))]
    exact hother k hk3 fun heq => hfree (heq ▸ hbit)
  · have hzero' : cur ≤ ((Fin.ofNat 9 cur.toNat : Fin 9) : Int) := (ofNat_val h0 h6).ge
    rw [h.bits k hk, hbits k hk]
    constructor
    · rintro ((rfl | hbit) | ⟨l, hle, hlm, hlk⟩)
      · exact .inr ⟨_, hzero', by rw [ofNat_val h0 h6]; exact hm, hself⟩
      · exact .inl hbit
      · exact .inr ⟨l, by omega, hlm, hlk⟩
    · rintro (hbit | ⟨l, hle, hlm, hlk⟩)
      · exact .inl (.inr hbit)
      · by_cases hlc : (l : Int) = cur
        · exact .inl (.inl (hlk.symm.trans (hcur l hlc)))
        · exact .inr ⟨l, by omega, hlm, hlk⟩

theorem grow_of_room {n : Nat} {cur : Int} (hmeta : Reserved disk) (hroom : Room disk n)
    (h0 : 0 ≤ cur) (h7 : cur + n ≤ 7) : ∃ disk' inode', grow n cur disk inode =
      .ok (disk', inode') ∧ Grown disk inode cur (cur + n) disk' inode' := by
  induction n generalizing cur disk inode with
  | zero => exact ⟨disk, inode, rfl, .refl (by simp)⟩
  | succ n ih =>
    push_cast at h7
    obtain ⟨b, disk₁, hget, hmeta₁, hroom₁⟩ := getBlk_of_room hmeta hroom
    have hset := @setZoneBlk_of_range inode cur h0 (by omega) b
    obtain ⟨disk', inode', hgrow, hgrown⟩ := @ih disk₁
      { inode with iZone := Function.update inode.iZone (Fin.ofNat 9 cur.toNat) b } (cur + 1)
      hmeta₁ hroom₁ (by omega) (by omega)
    refine ⟨disk', inode', ?_, ?_⟩
    · simp only [grow, hget, ok_bind, hset, hgrow]
    · have hsum : cur + ((n + 1 : Nat) : Int) = cur + 1 + n := by
        push_cast
        ring
      rw [hsum]
      exact .cons hmeta h0 (by omega) (by omega) hget hgrown

/-- _reserve_zone as _write calls it. -/
theorem reserveZone_of_room (hinum : inode.iInum ≠ 0) {nzone : Int} (hmeta : Reserved disk)
    (hroom : Room disk (nzone - zonesOf inode.iSize).toNat) (h0 : 0 ≤ zonesOf inode.iSize)
    (h7 : nzone ≤ 7) : ∃ disk' inode', reserveZone disk inode nzone false = .ok (disk', inode') ∧
      Grown disk inode (zonesOf inode.iSize) nzone disk' inode' := by
  have hassert : inode.iInum ≥ 1 := Nat.one_le_iff_ne_zero.mpr hinum
  rw [reserveZone, assert_pos hassert, ok_bind]
  by_cases hlt : zonesOf inode.iSize < nzone
  · have hn : zonesOf inode.iSize + (nzone - zonesOf inode.iSize).toNat = nzone := by omega
    obtain ⟨disk', inode', hgrow, hgrown⟩ := @grow_of_room _ inode _ _ hmeta hroom h0 (by omega)
    rw [hn] at hgrown
    refine ⟨disk', inode', ?_, hgrown⟩
    rw [← hgrow]
    exact if_pos hlt
  · refine ⟨disk, inode, ?_, .refl (not_lt.mp hlt)⟩
    simp only [if_neg hlt, Bool.false_eq_true, and_false, if_false, pure_eq_ok]

/-! ## The zones of the grown file -/

/-- The content of the file, zero past its end. -/
def oldByte (disk : Disk) (inode : Inode) (x : Nat) : UInt8 :=
  if (x : Int) < inode.iSize then fileByte disk inode x else 0

/-- Distinct data blocks in the first `m` zones. -/
structure Zones (inode : Inode) (m : Int) : Prop where
  le : m ≤ 7
  data : ∀ k : Fin 9, (k : Int) < m → super.sDataStart ≤ inode.iZone k
  inj : ∀ k l : Fin 9, (k : Int) < m → (l : Int) < m → inode.iZone k = inode.iZone l → k = l

section Grown

variable {nzone : Int}

/-- An old zone is still the same block, with the same bytes. -/
theorem Grown.old_block (hno : Owned disk inode)
    (h : Grown disk inode (zonesOf inode.iSize) nzone disk' inode') {k : Fin 9}
    (hk : (k : Int) < zonesOf inode.iSize) :
    inode'.iZone k = inode.iZone k ∧ disk' (inode.iZone k) = disk (inode.iZone k) := by
  obtain ⟨hbit, hdata, hlt⟩ := hno.taken k hk
  have h3 : inode.iZone k ≠ 3 := by
    simp only [super] at hdata
    omega
  exact ⟨h.old k hk, h.kept _ hlt h3 hbit⟩

theorem Grown.zones (hno : Owned disk inode)
    (h : Grown disk inode (zonesOf inode.iSize) nzone disk' inode') (h7 : nzone ≤ 7) :
    Zones inode' (max (zonesOf inode.iSize) nzone) := by
  have hold : zonesOf inode.iSize ≤ 7 := by
    have hle := hno.le
    rw [zonesOf_eq hno.nonneg hno.le]
    simp only [maxSize] at hle
    omega
  have hcross : ∀ k l : Fin 9, (k : Int) < zonesOf inode.iSize → zonesOf inode.iSize ≤ (l : Int) →
      (l : Int) < nzone → inode'.iZone k ≠ inode'.iZone l := by
    intro k l hk hl hln heq
    obtain ⟨hbit, -⟩ := hno.taken k hk
    rw [← h.old k hk, heq] at hbit
    exact (h.fresh l hl hln).1 hbit
  refine ⟨max_le hold h7, fun k hk => ?_, fun k l hk hl heq => ?_⟩
  · by_cases hkz : (k : Int) < zonesOf inode.iSize
    · rw [h.old k hkz]
      exact (hno.taken k hkz).2.1
    · exact (h.fresh k (not_lt.mp hkz) (by omega)).2.1
  · by_cases hkz : (k : Int) < zonesOf inode.iSize
    · by_cases hlz : (l : Int) < zonesOf inode.iSize
      · rw [h.old k hkz, h.old l hlz] at heq
        exact hno.inj k l hkz hlz heq
      · exact absurd heq (hcross k l hkz (not_lt.mp hlz) (by omega))
    · by_cases hlz : (l : Int) < zonesOf inode.iSize
      · exact absurd heq.symm (hcross l k hlz (not_lt.mp hkz) (by omega))
      · exact h.apart k l (not_lt.mp hkz) (by omega) (not_lt.mp hlz) (by omega) heq

theorem zone_index {x : Nat} {m : Int} (hx : (x : Int) < 1024 * m) (h7 : m ≤ 7) :
    ((Fin.ofNat 9 (x / 1024) : Fin 9) : Nat) = x / 1024 := by
  refine zone_val ?_
  simp only [maxSize]
  omega

/-- The grown file has the old bytes and zeros after them. -/
theorem Grown.bytes (hno : NoHole disk inode)
    (h : Grown disk inode (zonesOf inode.iSize) nzone disk' inode') (h7 : nzone ≤ 7) {x : Nat}
    (hx : (x : Int) < 1024 * max (zonesOf inode.iSize) nzone) :
    fileByte disk' inode' x = oldByte disk inode x := by
  have hk := zone_index hx (h.zones hno.toOwned h7).le
  have hround : inode.iSize ≤ 1024 * zonesOf inode.iSize := by
    rw [zonesOf_eq hno.nonneg hno.le]
    omega
  rw [oldByte]
  by_cases hkz : ((Fin.ofNat 9 (x / 1024) : Fin 9) : Int) < zonesOf inode.iSize
  · obtain ⟨hzone, hblock⟩ := h.old_block hno.toOwned hkz
    have hsame : fileByte disk' inode' x = fileByte disk inode x :=
      fileByte_congr (by rw [hzone]; exact hblock)
    rw [hsame]
    split_ifs with hin
    · rfl
    · exact hno.tail x (not_lt.mp hin) (by omega)
  · obtain ⟨-, -, -, hzero⟩ := h.fresh _ (not_lt.mp hkz) (by omega)
    rw [if_neg (by omega), fileByte, hzero]
    simp [byteAt, zeroBlock]

end Grown

/-! ## Storing into zones -/

/-- A store of `n` bytes into zone `k`. -/
def put (disk : Disk) (inode : Inode) (k off n : Nat) (src : Nat → UInt8) : Disk :=
  Function.update disk (inode.iZone (Fin.ofNat 9 k))
    (store (disk (inode.iZone (Fin.ofNat 9 k))) off n src)

variable {m : Int}

/-- It changes the bytes of that stretch of the file only. -/
theorem fileByte_put (hz : Zones inode m) {k : Nat} (hk : (k : Int) < m) {off n : Nat}
    (hoff : off + n ≤ 1024) (src : Nat → UInt8) {x : Nat} (hx : (x : Int) < 1024 * m) :
    fileByte (put disk inode k off n src) inode x =
      if 1024 * k + off ≤ x ∧ x < 1024 * k + off + n then src (x - (1024 * k + off))
      else fileByte disk inode x := by
  have hxk := zone_index hx hz.le
  have hle := hz.le
  have hkk : ((Fin.ofNat 9 k : Fin 9) : Nat) = k := by
    rw [Fin.val_ofNat, Nat.mod_eq_of_lt (by omega)]
  by_cases heq : x / 1024 = k
  · have hsub : x % 1024 - off = x - (1024 * k + off) := by omega
    have hiff : off ≤ x % 1024 ∧ x % 1024 < off + n ↔
        1024 * k + off ≤ x ∧ x < 1024 * k + off + n := by omega
    rw [fileByte, put, heq, Function.update_self, byteAt_store (Nat.mod_lt _ (by decide)), hsub]
    simp only [hiff, fileByte, heq]
  · have hne : inode.iZone (Fin.ofNat 9 (x / 1024)) ≠ inode.iZone (Fin.ofNat 9 k) := by
      intro hzone
      have hval := congrArg Fin.val (hz.inj _ _ (by rw [hxk]; omega) (by rw [hkk]; exact hk) hzone)
      rw [hxk, hkk] at hval
      exact heq hval
    rw [if_neg (by omega)]
    exact fileByte_congr (Function.update_of_ne hne ..)

/-- And it stays inside the zones of the inode. -/
theorem put_frame (h7 : m ≤ 7) {k : Nat} (hk : (k : Int) < m) {off n : Nat} (src : Nat → UInt8)
    {b : Nat} (hb : ∀ k : Fin 9, (k : Int) < m → inode.iZone k ≠ b) :
    put disk inode k off n src b = disk b := by
  have hkk : ((Fin.ofNat 9 k : Fin 9) : Nat) = k := by
    rw [Fin.val_ofNat, Nat.mod_eq_of_lt (by omega)]
  exact Function.update_of_ne (hb _ (by rw [hkk]; exact hk)).symm ..

/-! ## The loop -/

theorem writeLoop_round {buf : Nat → UInt8} {fuel : Nat} {zone : Int} {done left blk : Nat}
    (hleft : 0 < left) (hget : getZoneBlk inode zone = .ok blk) :
    writeLoop inode buf (fuel + 1) zone done left disk =
      writeLoop inode buf fuel (zone + 1) (done + nextBytes left) (left - nextBytes left)
        (Function.update disk blk (store (disk blk) 0 (nextBytes left) fun i => buf (done + i))) := by
  rw [writeLoop, if_pos hleft, hget]
  rfl

theorem writeLoop_done {buf : Nat → UInt8} {fuel : Nat} {zone : Int} {done : Nat} :
    writeLoop inode buf (fuel + 1) zone done 0 disk = .ok disk := by
  rw [writeLoop, if_neg (lt_irrefl 0)]
  rfl

theorem writeLoop_get {buf : Nat → UInt8} {fuel : Nat} {zone : Int} {done left : Nat}
    (hleft : 0 < left) (h : writeLoop inode buf fuel zone done left disk = .ok disk') :
    ∃ n blk, fuel = n + 1 ∧ getZoneBlk inode zone = .ok blk := by
  cases fuel with
  | zero => cases h
  | succ n =>
    rw [writeLoop, if_pos hleft, bind_eq_ok] at h
    obtain ⟨blk, hget, -⟩ := h
    exact ⟨n, blk, rfl, hget⟩

/-- Two blocks or more, and nothing over: no round takes a byte. -/
theorem writeLoop_stuck {buf : Nat → UInt8} {fuel : Nat} {zone : Int} {done left : Nat}
    (hleft : 1024 < left) (hmod : left % 1024 = 0) :
    writeLoop inode buf fuel zone done left disk ≠ .ok disk' := by
  induction fuel generalizing zone done disk with
  | zero => nofun
  | succ fuel ih =>
    intro h
    obtain ⟨_, blk, -, hget⟩ := writeLoop_get (by omega) h
    have hbytes : nextBytes left = 0 := (nextBytes_of_gt hleft).trans hmod
    rw [writeLoop_round (by omega) hget, hbytes, Nat.sub_zero] at h
    exact ih h

theorem writeLoop_long {buf : Nat → UInt8} {fuel : Nat} {zone : Int} {done left : Nat}
    (hleft : 2048 ≤ left) : writeLoop inode buf fuel zone done left disk ≠ .ok disk' := by
  intro h
  obtain ⟨n, blk, rfl, hget⟩ := writeLoop_get (by omega) h
  rw [writeLoop_round (by omega) hget, nextBytes_of_gt (by omega)] at h
  exact writeLoop_stuck (by omega) (by omega) h

/-- The loop ends only when the zone of the last byte is within the old size. -/
theorem writeLoop_reach {buf : Nat → UInt8} {fuel : Nat} {zone : Int} {done left : Nat}
    (hleft : 0 < left) (h : writeLoop inode buf fuel zone done left disk = .ok disk') :
    left < 2048 ∧ zone + ((left - 1) / 1024 : Nat) ≤ zonesOf inode.iSize := by
  rcases Nat.lt_or_ge left 2048 with hshort | hlong
  · obtain ⟨n, blk, rfl, hget⟩ := writeLoop_get hleft h
    obtain ⟨-, -, hzone, -⟩ := getZoneBlk_ok hget
    refine ⟨hshort, ?_⟩
    rcases Nat.lt_or_ge 1024 left with htwo | hone
    · rw [writeLoop_round hleft hget, nextBytes_of_gt htwo] at h
      obtain ⟨_, blk', -, hget'⟩ := writeLoop_get (by omega) h
      obtain ⟨-, -, hzone', -⟩ := getZoneBlk_ok hget'
      omega
    · omega
  · exact absurd h (writeLoop_long hlong)

/-- The byte a write leaves at `x`: after the first block, more than one and less than two
blocks go out in the wrong order, the rest first. -/
def scattered (pos count : Nat) (buf : Nat → UInt8) (x : Nat) (old : UInt8) : UInt8 :=
  if restBytes pos count ≤ 1024 ∨ x < pos + (count - 1024) then
    if pos ≤ x ∧ x < pos + count then buf (x - pos) else old
  else if pos + firstBytes pos count + 1024 ≤ x ∧ x < pos + firstBytes pos count + 2048 then
    buf (x - pos - (2048 - restBytes pos count))
  else old

theorem scattered_of_le (hrest : restBytes pos count ≤ 1024) (buf : Nat → UInt8) (x : Nat)
    (old : UInt8) : scattered pos count buf x old =
      if pos ≤ x ∧ x < pos + count then buf (x - pos) else old :=
  if_pos (.inl hrest)

/-- What the data part of a write does to the blocks of the first `m` zones. -/
structure Stored (disk : Disk) (inode : Inode) (m : Int) (pos count : Nat) (buf : Nat → UInt8)
    (disk' : Disk) : Prop where
  bytes : ∀ x : Nat, (x : Int) < 1024 * m →
    fileByte disk' inode x = scattered pos count buf x (fileByte disk inode x)
  frame : ∀ b, (∀ k : Fin 9, (k : Int) < m → inode.iZone k ≠ b) → disk' b = disk b

theorem getZoneBlk_upto {k : Nat} (hk : (k : Int) < m) (h7 : m ≤ 7)
    (hsize : (k : Int) ≤ zonesOf inode.iSize) :
    getZoneBlk inode k = .ok (inode.iZone (Fin.ofNat 9 k)) := by
  have hget := @getZoneBlk_of_range inode (k : Int) (by omega) (by omega) hsize
  rwa [Int.toNat_natCast] at hget

/-- The data part ends when less than two blocks follow the first and the zone of the last
byte is within the old size. -/
theorem write_data (hz : Zones inode m) (hcount : 0 < count)
    (hend : ((pos + count : Nat) : Int) ≤ 1024 * m) (hrest : restBytes pos count < 2048)
    (hlast : (((pos + count - 1) / 1024 : Nat) : Int) ≤ zonesOf inode.iSize) (buf : Nat → UInt8) :
    getZoneBlk inode (pos / 1024) = .ok (inode.iZone (Fin.ofNat 9 (pos / 1024))) ∧
      ∃ disk', writeLoop inode buf 8 (pos / 1024 + 1) (firstBytes pos count) (restBytes pos count)
        (put disk inode (pos / 1024) (pos % 1024) (firstBytes pos count) buf) = .ok disk' ∧
          Stored disk inode m pos count buf disk' := by
  have hsplit := first_add_rest pos count
  have hfirst : firstBytes pos count ≤ 1024 - pos % 1024 := min_le_right _ _
  have h7 := hz.le
  have hm₀ : ((pos / 1024 : Nat) : Int) < m := by omega
  have hget₀ := @getZoneBlk_upto inode m _ hm₀ h7 (by omega)
  push_cast at hget₀
  have hoff₀ : pos % 1024 + firstBytes pos count ≤ 1024 := by omega
  have hstart : 1024 * (pos / 1024) + pos % 1024 = pos := by omega
  refine ⟨hget₀, ?_⟩
  rcases Nat.eq_zero_or_pos (restBytes pos count) with hzero | hpos
  · refine ⟨_, by rw [hzero]; exact writeLoop_done, fun x hx => ?_, fun b hb => ?_⟩
    · have hstop : firstBytes pos count = count := by omega
      rw [fileByte_put hz hm₀ hoff₀ _ hx, scattered_of_le (by omega), hstart, hstop]
    · exact put_frame h7 hm₀ _ hb
  have hzone := next_zone hpos
  have hm₁ : ((pos / 1024 + 1 : Nat) : Int) < m := by omega
  have hget₁ := @getZoneBlk_upto inode m _ hm₁ h7 (by omega)
  push_cast at hget₁
  set disk₁ := put disk inode (pos / 1024) (pos % 1024) (firstBytes pos count) buf with hdisk₁
  rcases Nat.lt_or_ge 1024 (restBytes pos count) with htwo | hone
  · have hm₂ : ((pos / 1024 + 2 : Nat) : Int) < m := by omega
    have hget₂ := @getZoneBlk_upto inode m _ hm₂ h7 (by omega)
    push_cast at hget₂
    have hover : restBytes pos count % 1024 = restBytes pos count - 1024 := by omega
    have hlater : restBytes pos count - (restBytes pos count - 1024) = 1024 := by omega
    set disk₂ := put disk₁ inode (pos / 1024 + 1) 0 (restBytes pos count - 1024)
      (fun i => buf (firstBytes pos count + i)) with hdisk₂
    refine ⟨put disk₂ inode (pos / 1024 + 2) 0 1024 fun i =>
      buf (firstBytes pos count + (restBytes pos count - 1024) + i), ?_, fun x hx => ?_,
      fun b hb => ?_⟩
    · rw [writeLoop_round hpos hget₁, nextBytes_of_gt htwo, hover, hlater,
        writeLoop_round (by omega) (by rw [add_assoc]; exact hget₂), nextBytes_of_le le_rfl,
        Nat.sub_self, writeLoop_done]
      rfl
    · rw [fileByte_put hz hm₂ le_rfl _ hx, hdisk₂, fileByte_put hz hm₁ (by omega) _ hx, hdisk₁,
        fileByte_put hz hm₀ hoff₀ _ hx, hstart]
      simp only [Nat.add_zero]
      have hzone₂ : 1024 * (pos / 1024 + 2) = pos + firstBytes pos count + 1024 := by omega
      rw [hzone₂, ← hzone, scattered]
      by_cases hfront : x < pos + (count - 1024)
      · rw [if_neg (by omega), if_pos (Or.inr hfront)]
        by_cases hx₁ : pos + firstBytes pos count ≤ x
        · have hat : firstBytes pos count + (x - (pos + firstBytes pos count)) = x - pos := by omega
          rw [if_pos (by omega), if_pos (by omega), hat]
        · rw [if_neg (by omega)]
          exact if_congr (by omega) rfl rfl
      · have hback : ¬(restBytes pos count ≤ 1024 ∨ x < pos + (count - 1024)) := by omega
        rw [if_neg hback]
        by_cases hx₂ : pos + firstBytes pos count + 1024 ≤ x ∧
            x < pos + firstBytes pos count + 2048
        · have hat : firstBytes pos count + (restBytes pos count - 1024) +
              (x - (pos + firstBytes pos count + 1024)) =
                x - pos - (2048 - restBytes pos count) := by omega
          rw [if_pos (by omega), if_pos hx₂, hat]
        · rw [if_neg (by omega), if_neg (by omega), if_neg (by omega), if_neg hx₂]
    · rw [put_frame h7 hm₂ _ hb, hdisk₂, put_frame h7 hm₁ _ hb, hdisk₁, put_frame h7 hm₀ _ hb]
  · refine ⟨put disk₁ inode (pos / 1024 + 1) 0 (restBytes pos count) fun i =>
      buf (firstBytes pos count + i), ?_, fun x hx => ?_, fun b hb => ?_⟩
    · rw [writeLoop_round hpos hget₁, nextBytes_of_le hone, Nat.sub_self, writeLoop_done]
      rfl
    · rw [fileByte_put hz hm₁ (by omega) _ hx, hdisk₁, fileByte_put hz hm₀ hoff₀ _ hx,
        scattered_of_le hone, hstart]
      simp only [Nat.add_zero]
      rw [← hzone]
      by_cases hx₁ : pos + firstBytes pos count ≤ x ∧
          x < pos + firstBytes pos count + restBytes pos count
      · have hat : firstBytes pos count + (x - (pos + firstBytes pos count)) = x - pos := by omega
        rw [if_pos hx₁, if_pos (by omega), hat]
      · rw [if_neg hx₁]
        exact if_congr (by omega) rfl rfl
    · rw [put_frame h7 hm₁ _ hb, hdisk₁, put_frame h7 hm₀ _ hb]

/-! ## The whole write -/

/-- An inode of the table: its number is taken, and its record lies in the table. -/
structure Live (disk : Disk) (inode : Inode) : Prop where
  ne_zero : inode.iInum ≠ 0
  lt : inode.iInum < sectorBits
  bit : InodeBit disk inode.iInum
  record : inodeBlk inode.iInum < super.sDataStart

theorem write_eq (hcount : 0 < count) (buf : Nat → UInt8) (ptrs : Pointers) :
    write disk inode pos buf count ptrs = (do
      let (disk, inode) ← reserveZone disk inode (zonesOf (pos + count)) false
      let blk ← getZoneBlk inode (pos / 1024)
      let disk ← writeLoop inode buf 8 (pos / 1024 + 1) (firstBytes pos count)
        (restBytes pos count)
        (Function.update disk blk (store (disk blk) (pos % 1024) (firstBytes pos count) buf))
      let inode := { inode with iSize := sizeAfter inode.iSize pos count }
      let disk ← writeInode disk inode ptrs
      pure ((count : Int), disk, inode)) := by
  have hargs : (pos : Int) ≥ 0 ∧ (count : Int) > 0 := ⟨by omega, by omega⟩
  have hoff : ((pos : Int) % 1024).toNat = pos % 1024 := by omega
  rw [Zone.write, assert_pos hargs, ok_bind]
  simp only [hoff, Int.toNat_natCast]
  rfl

/-- The zone of the last byte of the range. -/
def lastZone (pos count : Nat) : Nat := (pos + count - 1) / 1024

/-- Less than two blocks after the first, and no zone further on than the one after the old
size: this is what the code can write. -/
def WriteFits (inode : Inode) (pos count : Nat) : Prop :=
  restBytes pos count < 2048 ∧ (lastZone pos count : Int) ≤ zonesOf inode.iSize

/-- The zones, the data, the size and the record of a _write that returns. -/
structure Steps (disk : Disk) (inode : Inode) (pos count : Nat) (buf : Nat → UInt8)
    (disk' : Disk) (inode' : Inode) : Prop where
  size : inode'.iSize = max inode.iSize ((pos + count : Nat) : Int)
  iInum : inode'.iInum = inode.iInum
  parts : ∃ disk₁ inode₁ disk₂ block,
    Grown disk inode (zonesOf inode.iSize) (zonesOf (pos + count)) disk₁ inode₁ ∧
    Stored disk₁ inode₁ (max (zonesOf inode.iSize) (zonesOf (pos + count))) pos count buf disk₂ ∧
    disk' = Function.update disk₂ (inodeBlk inode.iInum) block ∧ inode'.iZone = inode₁.iZone

section Write

variable (hmeta : Reserved disk) (hown : Owned disk inode) (hlive : Live disk inode)
  (hroom : Room disk (zonesOf (pos + count) - zonesOf inode.iSize).toNat) (hcount : 0 < count)
  (hend : ((pos + count : Nat) : Int) ≤ maxSize)

include hown hend

theorem zones_bound : zonesOf (pos + count) ≤ 7 ∧ 0 ≤ zonesOf inode.iSize ∧
    ((pos + count : Nat) : Int) ≤ 1024 * max (zonesOf inode.iSize) (zonesOf (pos + count)) ∧
      zonesOf (max inode.iSize ((pos + count : Nat) : Int)) =
        max (zonesOf inode.iSize) (zonesOf (pos + count)) := by
  have hend' : (pos : Int) + count ≤ maxSize := by
    push_cast at hend
    exact hend
  have hmax := zonesOf_max hown.nonneg hown.le (n := pos + count) (by omega) hend'
  have hnew := zonesOf_eq (n := pos + count) (by omega) hend'
  have hold := zonesOf_eq hown.nonneg hown.le
  have hsize := hown.nonneg
  simp only [maxSize] at hend
  push_cast
  refine ⟨by omega, by omega, by omega, hmax⟩

include hmeta hlive hroom hcount

/-- A _write that fits returns. -/
theorem write_of_fits (hfits : WriteFits inode pos count) (buf : Nat → UInt8) (ptrs : Pointers) :
    ∃ disk' inode', write disk inode pos buf count ptrs = .ok (count, disk', inode') ∧
      Steps disk inode pos count buf disk' inode' := by
  obtain ⟨h7, h0, hbound, -⟩ := zones_bound hown hend
  obtain ⟨disk₁, inode₁, hres, hgrown⟩ :=
    reserveZone_of_room hlive.ne_zero hmeta hroom h0 h7
  have hz := hgrown.zones hown h7
  have hsize := hgrown.same.iSize
  have hinum := hgrown.same.iInum
  obtain ⟨hget, disk₂, hloop, hstored⟩ := @write_data disk₁ inode₁ pos count _ hz hcount hbound
    hfits.1 (by rw [hsize]; exact hfits.2) buf
  have hbit : InodeBit disk₂ inode₁.iInum := by
    have hzone2 : ∀ k : Fin 9, (k : Int) < max (zonesOf inode.iSize) (zonesOf (pos + count)) →
        inode₁.iZone k ≠ 2 := by
      intro k hk heq
      have hdata := hz.data k hk
      rw [heq] at hdata
      exact absurd hdata (by decide)
    have hmap : disk₂ 2 = disk 2 := by
      rw [hstored.frame 2 hzone2]
      exact hgrown.kept 2 (by decide) (by decide) (hmeta 2 (by decide))
    rw [hinum, inodeBit_congr hmap hlive.lt]
    exact hlive.bit
  obtain ⟨disk₃, hrec⟩ := @writeInode_of_bit disk₂
    { inode₁ with iSize := sizeAfter inode₁.iSize pos count } ptrs
    (hinum ▸ hlive.ne_zero) (hinum ▸ hlive.lt) hbit
  have hafter : sizeAfter inode₁.iSize pos count = max inode.iSize ((pos + count : Nat) : Int) := by
    rw [hsize, sizeAfter_eq hown.nonneg hown.le (by omega) (by push_cast at hend; exact hend)]
    push_cast
    rfl
  obtain ⟨-, -, -, hdisk⟩ := writeInode_ok hrec
  simp only [hinum] at hdisk
  refine ⟨disk₃, { inode₁ with iSize := sizeAfter inode₁.iSize pos count }, ?_, hafter, hinum,
    disk₁, inode₁, disk₂, _, hgrown, hstored, hdisk, rfl⟩
  · rw [write_eq hcount, hres, ok_bind]
    simp only [hget, ok_bind]
    have hput : Function.update disk₁ (inode₁.iZone (Fin.ofNat 9 (pos / 1024)))
        (store (disk₁ (inode₁.iZone (Fin.ofNat 9 (pos / 1024)))) (pos % 1024)
          (firstBytes pos count) buf) =
        put disk₁ inode₁ (pos / 1024) (pos % 1024) (firstBytes pos count) buf := rfl
    rw [hput, hloop, ok_bind, hrec]
    rfl

/-- A _write that returns is one that fits. -/
theorem write_only_fits {buf : Nat → UInt8} {ptrs : Pointers} {r : Int × Disk × Inode}
    (h : write disk inode pos buf count ptrs = .ok r) : WriteFits inode pos count := by
  obtain ⟨h7, h0, -, -⟩ := zones_bound hown hend
  obtain ⟨disk₁, inode₁, hres, hgrown⟩ := reserveZone_of_room hlive.ne_zero hmeta hroom h0 h7
  rw [write_eq hcount, hres, ok_bind] at h
  simp only [bind_eq_ok] at h
  obtain ⟨blk, hget, disk₂, hloop, -⟩ := h
  obtain ⟨-, -, hzone, -⟩ := getZoneBlk_ok hget
  rw [hgrown.same.iSize] at hzone
  have hsplit := first_add_rest pos count
  unfold WriteFits lastZone
  rcases Nat.eq_zero_or_pos (restBytes pos count) with hzero | hpos
  · have hfirst : firstBytes pos count ≤ 1024 - pos % 1024 := min_le_right _ _
    refine ⟨by omega, ?_⟩
    omega
  · obtain ⟨hrest, hreach⟩ := writeLoop_reach hpos hloop
    have hnext := next_zone hpos
    rw [hgrown.same.iSize] at hreach
    refine ⟨hrest, ?_⟩
    omega

end Write

/-- The bytes of the file, up to the end of its last block, after a _write that returns. -/
theorem Steps.bytes_zones (hno : NoHole disk inode) (hlive : Live disk inode)
    (hend : ((pos + count : Nat) : Int) ≤ maxSize) {buf : Nat → UInt8}
    (h : Steps disk inode pos count buf disk' inode') {x : Nat}
    (hx : (x : Int) < 1024 * zonesOf inode'.iSize) :
    fileByte disk' inode' x = scattered pos count buf x (oldByte disk inode x) := by
  obtain ⟨hsize, -, disk₁, inode₁, disk₂, block, hgrown, hstored, rfl, hzone⟩ := h
  obtain ⟨h7, -, -, hmax⟩ := zones_bound hno.toOwned hend
  have hz := hgrown.zones hno.toOwned h7
  have hxm : (x : Int) < 1024 * max (zonesOf inode.iSize) (zonesOf (pos + count)) := by
    rw [hsize, hmax] at hx
    exact hx
  have hxk := zone_index hxm hz.le
  have hdata := hz.data (Fin.ofNat 9 (x / 1024)) (by rw [hxk]; omega)
  have hne : inode₁.iZone (Fin.ofNat 9 (x / 1024)) ≠ inodeBlk inode.iInum := by
    intro heq
    exact Nat.not_le.mpr hlive.record (heq ▸ hdata)
  have hblock : Function.update disk₂ (inodeBlk inode.iInum) block
      (inode₁.iZone (Fin.ofNat 9 (x / 1024))) = disk₂ (inode₁.iZone (Fin.ofNat 9 (x / 1024))) :=
    Function.update_of_ne hne ..
  rw [fileByte, hzone, hblock]
  show fileByte disk₂ inode₁ x = _
  rw [hstored.bytes x hxm, hgrown.bytes hno h7 hxm]

/-- The bytes of the file, and the blocks of other files, after a _write that returns. -/
theorem Steps.bytes (hno : NoHole disk inode) (hlive : Live disk inode)
    (hend : ((pos + count : Nat) : Int) ≤ maxSize) {buf : Nat → UInt8}
    (h : Steps disk inode pos count buf disk' inode') {x : Nat} (hx : (x : Int) < inode'.iSize) :
    fileByte disk' inode' x = scattered pos count buf x (oldByte disk inode x) := by
  refine h.bytes_zones hno hlive hend ?_
  obtain ⟨-, -, hbound, hmax⟩ := zones_bound hno.toOwned hend
  have hround : inode.iSize ≤ 1024 * zonesOf inode.iSize := by
    rw [zonesOf_eq hno.nonneg hno.le]
    omega
  rw [h.size] at hx ⊢
  rw [hmax]
  omega

theorem Steps.others (hlive : Live disk inode) {buf : Nat → UInt8}
    (h : Steps disk inode pos count buf disk' inode') {b : Nat} (hb : b < sectorBits)
    (hbit : ZoneBit disk b) (hdata : super.sDataStart ≤ b)
    (hother : ∀ k : Fin 9, (k : Int) < zonesOf inode.iSize → inode.iZone k ≠ b) :
    disk' b = disk b := by
  obtain ⟨-, -, disk₁, inode₁, disk₂, block, hgrown, hstored, rfl, -⟩ := h
  have hfree : ∀ k : Fin 9, (k : Int) < max (zonesOf inode.iSize) (zonesOf (pos + count)) →
      inode₁.iZone k ≠ b := by
    intro k hk heq
    by_cases hkz : (k : Int) < zonesOf inode.iSize
    · exact hother k hkz ((hgrown.old k hkz).symm.trans heq)
    · have hkm : (k : Int) < zonesOf (pos + count) := (lt_max_iff.mp hk).resolve_left hkz
      obtain ⟨hnot, -⟩ := hgrown.fresh k (not_lt.mp hkz) hkm
      rw [heq] at hnot
      exact hnot hbit
  have hrecord : b ≠ inodeBlk inode.iInum := by
    intro heq
    exact Nat.not_le.mpr hlive.record (heq ▸ hdata)
  have hb3 : b ≠ 3 := by
    intro heq
    rw [heq] at hdata
    exact absurd hdata (by decide)
  rw [Function.update_of_ne hrecord, hstored.frame b hfree]
  exact hgrown.kept b hb hb3 hbit

/-! ## What a write should do -/

/-- The whole count is written: the bytes of the range are those of the buffer, the others are
the old ones with zeros after them, and no block of another file changes. -/
def WritesContent (disk : Disk) (inode : Inode) (pos : Nat) (buf : Nat → UInt8) (count : Nat)
    (ptrs : Pointers) : Prop :=
  ∃ disk' inode', write disk inode pos buf count ptrs = .ok (count, disk', inode') ∧
    inode'.iSize = max inode.iSize ((pos + count : Nat) : Int) ∧
    (∀ x : Nat, (x : Int) < inode'.iSize → fileByte disk' inode' x =
      if pos ≤ x ∧ x < pos + count then buf (x - pos) else oldByte disk inode x) ∧
    ∀ b < sectorBits, ZoneBit disk b → super.sDataStart ≤ b →
      (∀ k : Fin 9, (k : Int) < zonesOf inode.iSize → inode.iZone k ≠ b) → disk' b = disk b

/-- With more than one and less than two blocks after the first: the bytes that are skipped or
come out of place happen to be what they should be. -/
def Agrees (disk : Disk) (inode : Inode) (pos : Nat) (buf : Nat → UInt8) (count : Nat) : Prop :=
  ∀ x : Nat, (x : Int) < max inode.iSize ((pos + count : Nat) : Int) → pos + (count - 1024) ≤ x →
    x < pos + firstBytes pos count + 2048 →
      (if x < pos + firstBytes pos count + 1024 then oldByte disk inode x
        else buf (x - pos - (2048 - restBytes pos count))) =
      if x < pos + count then buf (x - pos) else oldByte disk inode x

theorem scattered_eq_iff (hrest : 1024 < restBytes pos count) (hshort : restBytes pos count < 2048)
    (buf : Nat → UInt8) :
    (∀ x : Nat, (x : Int) < max inode.iSize ((pos + count : Nat) : Int) →
      scattered pos count buf x (oldByte disk inode x) =
        if pos ≤ x ∧ x < pos + count then buf (x - pos) else oldByte disk inode x) ↔
      Agrees disk inode pos buf count := by
  have hsplit := first_add_rest pos count
  have hlate : ∀ x, pos + (count - 1024) ≤ x → x < pos + firstBytes pos count + 2048 → ∀ old,
      scattered pos count buf x old = if x < pos + firstBytes pos count + 1024 then old
        else buf (x - pos - (2048 - restBytes pos count)) := by
    intro x hle hlt old
    have hback : ¬(restBytes pos count ≤ 1024 ∨ x < pos + (count - 1024)) := by omega
    rw [scattered, if_neg hback]
    by_cases hx : x < pos + firstBytes pos count + 1024
    · rw [if_neg (by omega), if_pos hx]
    · rw [if_pos ⟨by omega, hlt⟩, if_neg hx]
  have hrange : ∀ x, pos + (count - 1024) ≤ x →
      ((pos ≤ x ∧ x < pos + count) ↔ x < pos + count) := by
    intro x hx
    omega
  constructor
  · intro hall x hx hle hlt
    have heq := hall x hx
    rw [hlate x hle hlt] at heq
    simp only [hrange x hle] at heq
    exact heq
  · intro hagrees x hx
    by_cases hfront : x < pos + (count - 1024)
    · rw [scattered, if_pos (.inr hfront)]
    by_cases hlt : x < pos + firstBytes pos count + 2048
    · rw [hlate x (by omega) hlt]
      simp only [hrange x (by omega)]
      exact hagrees x hx (by omega) hlt
    · have hback : ¬(restBytes pos count ≤ 1024 ∨ x < pos + (count - 1024)) := by omega
      rw [scattered, if_neg hback, if_neg (by omega), if_neg (by omega)]

/-- _write does what it should exactly when the range fits and, beyond one block after the
first, the bytes agree by accident. -/
theorem write_content_iff (hmeta : Reserved disk) (hno : NoHole disk inode)
    (hlive : Live disk inode) (hroom : Room disk (zonesOf (pos + count) - zonesOf inode.iSize).toNat)
    (hcount : 0 < count) (hend : ((pos + count : Nat) : Int) ≤ maxSize) (buf : Nat → UInt8)
    (ptrs : Pointers) : WritesContent disk inode pos buf count ptrs ↔
      WriteFits inode pos count ∧
        (restBytes pos count ≤ 1024 ∨ Agrees disk inode pos buf count) := by
  constructor
  · rintro ⟨disk', inode', hwrite, hsize, hbytes, -⟩
    have hfits := write_only_fits hmeta hno.toOwned hlive hroom hcount hend hwrite
    refine ⟨hfits, ?_⟩
    rcases Nat.lt_or_ge 1024 (restBytes pos count) with htwo | hone
    · right
      obtain ⟨disk'', inode'', hwrite', hwritten⟩ :=
        write_of_fits hmeta hno.toOwned hlive hroom hcount hend hfits buf ptrs
      obtain ⟨-, hsame⟩ := Prod.mk.inj (Except.ok.inj (hwrite.symm.trans hwrite'))
      obtain ⟨rfl, rfl⟩ := Prod.mk.inj hsame
      refine (scattered_eq_iff htwo hfits.1 buf).mp fun x hx => ?_
      rw [← hsize] at hx
      rw [← hwritten.bytes hno hlive hend hx, hbytes x hx]
    · exact .inl hone
  · rintro ⟨hfits, hplace⟩
    obtain ⟨disk', inode', hwrite, hwritten⟩ :=
      write_of_fits hmeta hno.toOwned hlive hroom hcount hend hfits buf ptrs
    refine ⟨disk', inode', hwrite, hwritten.size, fun x hx => ?_, fun b hb hbit hdata hother =>
      hwritten.others hlive hb hbit hdata hother⟩
    rw [hwritten.bytes hno hlive hend hx]
    rcases Nat.lt_or_ge 1024 (restBytes pos count) with htwo | hone
    · have hagrees := hplace.resolve_left (Nat.not_le.mpr htwo)
      rw [hwritten.size] at hx
      exact (scattered_eq_iff htwo hfits.1 buf).mpr hagrees x hx
    · exact scattered_of_le hone buf x _

/-- The maps as mkfs leaves them, and an empty inode 1. -/
def emptyDisk : Disk := fun b i =>
  if b = 2 ∧ i.val = 0 then 0x03
  else if b = 3 ∧ i.val = 0 then 0xff
  else if b = 3 ∧ i.val = 1 then 0x03
  else 0

def emptyFile : Inode where
  iInum := 1
  iSize := 0
  iMode := 0
  iNlink := 1
  iZone _ := 0
  iRefcnt := 1

theorem emptyDisk_reserved : Reserved emptyDisk := by
  have hbits : ∀ b < 10, BitAt (emptyDisk 3) b := by decide
  intro b hb
  have hsmall : b < 10 := hb
  rw [ZoneBit, MapBit, Nat.div_eq_of_lt (by simp only [sectorBits]; omega),
    Nat.mod_eq_of_lt (by simp only [sectorBits]; omega)]
  exact hbits b hsmall

theorem emptyFile_noHole : NoHole emptyDisk emptyFile where
  nonneg := le_rfl
  le := by decide
  taken k hk := by
    have hzones : zonesOf emptyFile.iSize = 0 := by decide
    omega
  inj k l hk := by
    have hzones : zonesOf emptyFile.iSize = 0 := by decide
    omega
  tail x hx hlt := by
    have hzones : zonesOf emptyFile.iSize = 0 := by decide
    omega

theorem emptyFile_live : Live emptyDisk emptyFile :=
  ⟨by decide, by decide, by show BitAt (emptyDisk 2) 1; decide, by decide⟩

theorem emptyDisk_room : Room emptyDisk 2 := by
  have hbits : ∀ b ∈ ({10, 11} : Finset Nat), ¬BitAt (emptyDisk 3) b := by decide
  refine ⟨{10, 11}, le_rfl, fun b hb => ⟨?_, ?_⟩⟩
  · have hsmall : ∀ b ∈ ({10, 11} : Finset Nat), b < sectorBits := by decide
    exact hsmall b hb
  · have hsmall : ∀ b ∈ ({10, 11} : Finset Nat), b < sectorBits := by decide
    rw [ZoneBit, MapBit, Nat.div_eq_of_lt (hsmall b hb), Nat.mod_eq_of_lt (hsmall b hb)]
    exact hbits b hb

theorem Room.mono {n k : Nat} (h : Room disk n) (hk : k ≤ n) : Room disk k := by
  obtain ⟨s, hcard, hfree⟩ := h
  exact ⟨s, hk.trans hcard, hfree⟩

/-- A file of 1000 bytes in block 10, on the same disk. -/
def shortDisk : Disk := fun b i =>
  if b = 3 ∧ i.val = 1 then 0x07
  else if b = 10 ∧ i.val < 1000 then 5
  else emptyDisk b i

def shortFile : Inode := { emptyFile with iSize := 1000, iZone := fun k => if k = 0 then 10 else 0 }

theorem shortDisk_zoneBit {b : Nat} (hb : b < sectorBits) :
    ZoneBit shortDisk b ↔ BitAt (shortDisk 3) b := by
  rw [ZoneBit, MapBit, Nat.div_eq_of_lt hb, Nat.mod_eq_of_lt hb]
  rfl

theorem shortDisk_reserved : Reserved shortDisk := by
  have hbits : ∀ b < 10, BitAt (shortDisk 3) b := by decide
  intro b hb
  have hsmall : b < 10 := hb
  exact (shortDisk_zoneBit (by simp only [sectorBits]; omega)).mpr (hbits b hsmall)

theorem shortFile_noHole : NoHole shortDisk shortFile where
  nonneg := by decide
  le := by decide
  taken k hk := by
    have hzones : zonesOf shortFile.iSize = 1 := by decide
    obtain rfl : k = 0 := by omega
    have hlt : 10 < sectorBits := by decide
    exact ⟨(shortDisk_zoneBit hlt).mpr (by decide), by decide, hlt⟩
  inj k l hk hl _ := by
    have hzones : zonesOf shortFile.iSize = 1 := by decide
    omega
  tail x hx hlt := by
    have hzones : zonesOf shortFile.iSize = 1 := by decide
    have hsize : 1000 ≤ (x : Int) := hx
    have hzone : (Fin.ofNat 9 (x / 1024) : Fin 9) = 0 := by
      rw [Nat.div_eq_of_lt (by omega)]
      rfl
    rw [fileByte, hzone, byteAt, dif_pos (Nat.mod_lt x (by decide))]
    show shortDisk 10 ⟨x % 1024, Nat.mod_lt x (by decide)⟩ = 0
    rw [shortDisk, if_neg fun h => absurd h.1 (by decide), if_neg fun h => ?_]
    · rfl
    · have hbyte : x % 1024 < 1000 := h.2
      omega

theorem shortFile_live : Live shortDisk shortFile :=
  ⟨by decide, by decide, by show BitAt (shortDisk 2) 1; decide, by decide⟩

theorem shortDisk_room : Room shortDisk 1 := by
  have hlt : 11 < sectorBits := by decide
  refine ⟨{11}, le_rfl, fun b hb => ?_⟩
  obtain rfl := Finset.mem_singleton.mp hb
  exact ⟨hlt, fun h => absurd ((shortDisk_zoneBit hlt).mp h) (by decide)⟩

/-- 100 bytes at its end: 24 fill the block, and 76 go into a new one. -/
theorem write_content_across :
    WritesContent shortDisk shortFile 1000 (fun i => UInt8.ofNat i) 100 fun _ => 0 := by
  have hfits : WriteFits shortFile 1000 100 := ⟨by decide, by decide⟩
  exact (write_content_iff shortDisk_reserved shortFile_noHole shortFile_live
    (shortDisk_room.mono (by decide)) (by decide) (by decide) _ _).mpr ⟨hfits, .inl (by decide)⟩

/-- Two blocks into an empty file: the second is past the size _write has not updated yet. -/
theorem write_two_blocks_stops : Reserved emptyDisk ∧ NoHole emptyDisk emptyFile ∧
    Live emptyDisk emptyFile ∧ Room emptyDisk 2 ∧
      ¬WritesContent emptyDisk emptyFile 0 (fun _ => 1) 2048 fun _ => 0 := by
  refine ⟨emptyDisk_reserved, emptyFile_noHole, emptyFile_live, emptyDisk_room, ?_⟩
  rintro ⟨disk', inode', hwrite, -⟩
  have hfits : WriteFits emptyFile 0 2048 := write_only_fits emptyDisk_reserved
    emptyFile_noHole.toOwned emptyFile_live (emptyDisk_room.mono (by decide)) (by decide) (by decide) hwrite
  exact absurd hfits.2 (by decide)

end RxdOs.Fs.FileWrite
