/- RxdOs/Fs/InodeTable
   source: fs/fs.c (create_inode, get_inode, put_inode, _write, write_inode)
   digest: The inodes on the disk own disjoint zones, and the ones in memory are as their
   records say: what each operation on inodes keeps. -/

import RxdOs.Fs.Directory
import RxdOs.Fs.FileWrite
import RxdOs.Fs.InodeRecord
import RxdOs.Fs.InodeRegion

set_option autoImplicit false
set_option relaxedAutoImplicit false

namespace RxdOs.Fs.InodeTable

open RxdOs.Base.Assert RxdOs.Base.Int32 RxdOs.Fs.Bitmap RxdOs.Fs.Layout RxdOs.Fs.Zone RxdOs.Fs.Dir
  RxdOs.Fs.ZoneMap RxdOs.Fs.FileBytes RxdOs.Fs.FileRead RxdOs.Fs.FileWrite RxdOs.Fs.InodeCache
  RxdOs.Fs.InodeRecord RxdOs.Fs.InodeRegion RxdOs.Fs.Directory

/-- Inode number `n` is in use. -/
def Used (disk : Disk) (n : Nat) : Prop := n ≠ 0 ∧ n < sectorBits ∧ InodeBit disk n

/-- Zone `k` of inode `n`, as its record says it, is block `b`. -/
def Owns (disk : Disk) (n : Nat) (k : Fin 9) (b : Nat) : Prop :=
  Used disk n ∧ (k : Int) < zonesOf (stored disk n).iSize ∧ (stored disk n).iZone k = b

/-- The records of the inodes in use: each in the table, under its number, with zones of its own. -/
structure Table (disk : Disk) : Prop where
  reserved : Reserved disk
  root : Used disk 1
  inside : ∀ n, Used disk n → n < tableSize
  number : ∀ n, Used disk n → (stored disk n).iInum = n
  owned : ∀ n, Used disk n → Owned disk (stored disk n)
  high : ∀ n, Used disk n → ∀ k : Fin 9, zonesOf (stored disk n).iSize ≤ (k : Int) →
    (stored disk n).iZone k = 0
  apart : ∀ n m k l b, Owns disk n k b → Owns disk m l b → n = m

/-- Every inode in memory is in use, is as its record says, and is there once. -/
structure Through (v : Volume) : Prop where
  table : Table v.disk
  nodup : v.inodeList.Nodup
  root : .root ∈ v.inodeList ∧ (v.inode .root).iInum = 1
  used : ∀ p ∈ v.inodeList, Used v.disk (v.inode p).iInum
  same : ∀ p ∈ v.inodeList, stored v.disk (v.inode p).iInum = onDisk (v.inode p)
  single : ∀ p ∈ v.inodeList, ∀ q ∈ v.inodeList, (v.inode p).iInum = (v.inode q).iInum → p = q
  counted : ∀ p ∈ v.inodeList, p ≠ .root → 0 < (v.inode p).iRefcnt

/-- The blocks that are taken, but not by this inode. -/
def Others (disk : Disk) (inode : Inode) (b : Nat) : Prop :=
  ZoneBit disk b ∧ ∀ k : Fin 9, (k : Int) < zonesOf inode.iSize → inode.iZone k ≠ b

variable {disk disk' : Disk} {inode inode' : Inode} {n : Nat} {ptrs : Pointers}

/-! ## The table -/

section Records

theorem inodeBlk_lt (hn : n < tableSize) : inodeBlk n < super.sDataStart := by
  have hblk := (inodeBlk_lt_iff n).mpr hn
  simp only [super] at hblk ⊢
  exact hblk

theorem writeInode_of_ne (h : writeInode disk inode ptrs = .ok disk') {b : Nat}
    (hb : b ≠ inodeBlk inode.iInum) : disk' b = disk b := by
  obtain ⟨-, -, -, rfl⟩ := writeInode_ok h
  exact Function.update_of_ne hb ..

theorem onDisk_decode (block : Block) (off : Nat) (n : Int) :
    onDisk (decode block off n) = decode block off 0 := by
  simp only [onDisk, decode]

theorem Owned.others_meta (hmeta : Reserved disk) (h : Owned disk inode) :
    ∀ b < super.sDataStart, Others disk inode b := by
  refine fun b hb => ⟨hmeta b hb, fun k hk heq => ?_⟩
  obtain ⟨-, hdata, -⟩ := h.taken k hk
  rw [heq] at hdata
  exact absurd hb (not_lt.mpr hdata)

/-- Seen from one inode, the zone map holds its zones and the others. -/
theorem Owned.fits (h : Owned disk inode)
    (hhigh : ∀ k : Fin 9, zonesOf inode.iSize ≤ (k : Int) → inode.iZone k = 0) :
    Fits (Others disk inode) disk inode (zonesOf inode.iSize) := by
  obtain ⟨h0, h7⟩ := ZoneAccounting.nzone_range ⟨h.nonneg, h.le⟩
  refine ⟨h0, h7, fun k hk => ⟨fun hother => hother.2 k hk rfl, (h.taken k hk).2.2⟩, hhigh, h.inj,
    fun b hb => ⟨fun hbit => ?_, ?_⟩⟩
  · by_cases hown : ∃ k : Fin 9, (k : Int) < zonesOf inode.iSize ∧ inode.iZone k = b
    · exact .inr hown
    · exact .inl ⟨hbit, fun k hk heq => hown ⟨k, hk, heq⟩⟩
  · rintro (hother | ⟨k, hk, rfl⟩)
    · exact hother.1
    · exact (h.taken k hk).1

theorem Table.fits (h : Table disk) (hn : Used disk n) :
    Fits (Others disk (stored disk n)) disk (stored disk n) (zonesOf (stored disk n).iSize) :=
  Owned.fits (h.owned n hn) (h.high n hn)

/-- The zones of one inode are others' blocks to every other inode. -/
theorem Table.others (h : Table disk) (hn : Used disk n) {m : Nat} (hm : Used disk m) (hmn : m ≠ n)
    {k : Fin 9} (hk : (k : Int) < zonesOf (stored disk m).iSize) :
    Others disk (stored disk n) ((stored disk m).iZone k) := by
  refine ⟨((h.owned m hm).taken k hk).1, fun l hl heq => hmn ?_⟩
  exact h.apart m n k l _ ⟨hm, hk, rfl⟩ ⟨hn, hl, heq⟩

/-- Record `n` is put in the table, for an inode whose zones fit beside those of the others. -/
theorem Table.put (h : Table disk) (hn : n ≠ 0 ∧ n < tableSize) {base : Nat → Prop}
    (hbase : ∀ b < super.sDataStart, base b)
    (hother : ∀ m, Used disk m → m ≠ n → ∀ k : Fin 9, (k : Int) < zonesOf (stored disk m).iSize →
      base ((stored disk m).iZone k))
    (hfits : Fits base disk' inode' (zonesOf inode'.iSize))
    (hsize : 0 ≤ inode'.iSize ∧ inode'.iSize ≤ maxSize) (hnum : inode'.iInum = n)
    (hused : ∀ m, Used disk' m ↔ m = n ∨ Used disk m) (hself : stored disk' n = onDisk inode')
    (hkept : ∀ m, Used disk m → m ≠ n → stored disk' m = stored disk m) : Table disk' := by
  have hinode : (stored disk' n).iSize = inode'.iSize ∧ (stored disk' n).iZone = inode'.iZone := by
    rw [hself]
    exact ⟨rfl, rfl⟩
  have hold : ∀ m, Used disk' m → m ≠ n → Used disk m := fun m hm hmn =>
    ((hused m).mp hm).resolve_left hmn
  -- what inode n owns now is nobody else's
  have hnew : ∀ m k l b, m ≠ n → Owns disk' m k b → Owns disk' n l b → False := by
    rintro m k l b hmn ⟨hm, hk, hzone⟩ ⟨-, hl, heq⟩
    rw [hinode.1] at hl
    rw [hinode.2] at heq
    have hm' := hold m hm hmn
    rw [hkept m hm' hmn] at hk hzone
    have hbad := hother m hm' hmn k hk
    rw [hzone, ← heq] at hbad
    exact (hfits.fresh l hl).1 hbad
  refine ⟨fun b hb => ?_, (hused 1).mpr (.inr h.root), fun m hm => ?_, fun m hm => ?_,
    fun m hm => ?_, fun m hm k hk => ?_, fun a c k l b ha hc => ?_⟩
  · exact (hfits.bits b (hb.trans (by decide))).mpr (.inl (hbase b hb))
  · rcases (hused m).mp hm with rfl | hm'
    · exact hn.2
    · exact h.inside m hm'
  · by_cases hmn : m = n
    · rw [hmn, hself, onDisk, hnum]
    · rw [hkept m (hold m hm hmn) hmn]
      exact h.number m (hold m hm hmn)
  · by_cases hmn : m = n
    · subst hmn
      refine ⟨by rw [hinode.1]; exact hsize.1, by rw [hinode.1]; exact hsize.2, fun k hk => ?_,
        fun k l hk hl heq => ?_⟩
      · rw [hinode.1] at hk
        rw [hinode.2]
        obtain ⟨hnot, hlt⟩ := hfits.fresh k hk
        refine ⟨(hfits.bits _ hlt).mpr (.inr ⟨k, hk, rfl⟩), not_lt.mp fun hmeta => ?_, hlt⟩
        exact hnot (hbase _ hmeta)
      · rw [hinode.1] at hk hl
        rw [hinode.2] at heq
        exact hfits.inj k l hk hl heq
    · have hm' := hold m hm hmn
      have hown := h.owned m hm'
      rw [hkept m hm' hmn]
      refine ⟨hown.nonneg, hown.le, fun k hk => ?_, hown.inj⟩
      obtain ⟨-, hdata, hlt⟩ := hown.taken k hk
      exact ⟨(hfits.bits _ hlt).mpr (.inl (hother m hm' hmn k hk)), hdata, hlt⟩
  · by_cases hmn : m = n
    · subst hmn
      rw [hinode.1] at hk
      rw [hinode.2]
      exact hfits.high k hk
    · have hm' := hold m hm hmn
      rw [hkept m hm' hmn] at hk ⊢
      exact h.high m hm' k hk
  · by_cases han : a = n
    · by_cases hcn : c = n
      · exact han.trans hcn.symm
      · subst han
        exact (hnew c l k b hcn hc ha).elim
    · by_cases hcn : c = n
      · subst hcn
        exact (hnew a k l b han ha hc).elim
      · obtain ⟨haU, hk, hzk⟩ := ha
        obtain ⟨hcU, hl, hzl⟩ := hc
        have haO := hold a haU han
        have hcO := hold c hcU hcn
        rw [hkept a haO han] at hk hzk
        rw [hkept c hcO hcn] at hl hzl
        exact h.apart a c k l b ⟨haO, hk, hzk⟩ ⟨hcO, hl, hzl⟩

theorem used_congr (h : disk' 2 = disk 2) (m : Nat) : Used disk' m ↔ Used disk m := by
  refine and_congr_right fun _ => and_congr_right fun hm => inodeBit_congr h hm

/-- What an operation on inode `n` leaves alone: the inode map, the other records, and the blocks
of their zones. -/
structure Beside (disk disk' : Disk) (n : Nat) : Prop where
  map : disk' 2 = disk 2
  records : ∀ m, Used disk m → m ≠ n → stored disk' m = stored disk m
  blocks : ∀ m k b, m ≠ n → Owns disk m k b → disk' b = disk b

theorem Owned.of_onDisk (h : Owned disk (onDisk inode)) : Owned disk inode :=
  ⟨h.nonneg, h.le, h.taken, h.inj⟩

theorem InRange.of_onDisk (h : InRange (onDisk inode)) : InRange inode :=
  ⟨h.iInum, h.iSize, h.iMode, h.iNlink, h.iZone⟩

/-- The table, for an inode in memory that is as its record says. -/
theorem Table.ready (h : Table disk) (hn : Used disk inode.iInum)
    (hsame : stored disk inode.iInum = onDisk inode) : Owned disk inode ∧ InRange inode ∧
      Fits (Others disk inode) disk inode (zonesOf inode.iSize) ∧
      ∀ m, Used disk m → m ≠ inode.iInum → ∀ k : Fin 9, (k : Int) < zonesOf (stored disk m).iSize →
        Others disk inode ((stored disk m).iZone k) := by
  have hown := h.owned _ hn
  have hrange := stored_inRange disk inode.iInum
  have hhigh := h.high _ hn
  rw [hsame] at hown hrange hhigh
  refine ⟨Owned.of_onDisk hown, InRange.of_onDisk hrange,
    Owned.fits (Owned.of_onDisk hown) hhigh, fun m hm hmn k hk => ?_⟩
  have hother := h.others hn hm hmn hk
  rw [hsame] at hother
  exact hother

theorem inRange_of_fits {base : Nat → Prop} {m : Int} (h : InRange inode)
    (hfits : Fits base disk' inode' m)
    (hsame : SameButZones { inode with iSize := inode'.iSize } inode')
    (hsize : 0 ≤ inode'.iSize ∧ inode'.iSize ≤ maxSize) : InRange inode' := by
  have hmode : inode'.iMode = inode.iMode := (congrArg Inode.iMode hsame :)
  refine ⟨?_, ?_, hmode ▸ h.iMode, ?_, fun k => ?_⟩
  · rw [hsame.iInum]
    exact h.iInum
  · obtain ⟨h0, hle⟩ := hsize
    simp only [maxSize] at hle
    constructor
    · omega
    · omega
  · rw [hsame.iNlink]
    exact h.iNlink
  · by_cases hk : (k : Int) < m
    · exact (hfits.fresh k hk).2.trans (by decide)
    · rw [hfits.high k (not_lt.mp hk)]
      decide

/-- A returning _write changes its own inode only, and leaves its record as it returns it. -/
theorem Table.write (h : Table disk) (hn : Used disk inode.iInum)
    (hsame : stored disk inode.iInum = onDisk inode) {pos count ret : Int} {buf : Nat → UInt8}
    (hwrite : Zone.write disk inode pos buf count ptrs = .ok (ret, disk', inode')) :
    Beside disk disk' inode.iInum ∧ stored disk' inode.iInum = onDisk inode' ∧ Table disk' ∧
      inode'.iInum = inode.iInum := by
  obtain ⟨hown, hrange, hfits, hother⟩ := h.ready hn hsame
  have hmeta := Owned.others_meta h.reserved hown
  obtain ⟨hfits', ⟨hsize, -, hend⟩, hbut, hframe⟩ :=
    write_ok hmeta hown.nonneg hown.le hfits hwrite
  obtain ⟨disk₂, hrec, hframe₂⟩ := write_record hmeta hfits hwrite
  have hnum : inode'.iInum = inode.iInum := hbut.iInum
  have hsize' : 0 ≤ inode'.iSize ∧ inode'.iSize ≤ maxSize := by
    rw [hsize]
    exact ⟨le_max_of_le_left hown.nonneg, max_le hown.le hend⟩
  have hself : stored disk' inode.iInum = onDisk inode' := by
    rw [← hnum]
    exact stored_writeInode hrec (inRange_of_fits hrange hfits' hbut hsize')
  have hbeside : Beside disk disk' inode.iInum := by
    refine ⟨?_, fun m hm hmn => ?_, fun m k b hmn hb => ?_⟩
    · have hblk := inodeBlk_ge inode.iInum
      exact hframe 2 (by decide) (by decide) (h.reserved 2 (by decide))
        (hfits'.zone_ne hmeta (by decide) (by decide)) (by omega)
    · have hlt := inodeBlk_lt (h.inside m hm)
      have hge := inodeBlk_ge m
      rw [stored_writeInode_of_ne hrec (by rw [hnum]; exact hmn)]
      exact stored_congr (hframe₂ _ (hlt.trans (by decide)) (by omega) (h.reserved _ hlt)
        (hfits'.zone_ne hmeta (by omega) hlt))
    · obtain ⟨hm, hk, rfl⟩ := hb
      obtain ⟨hbit, hdata, hlt⟩ := (h.owned m hm).taken k hk
      have hblk := inodeBlk_lt (h.inside _ hn)
      have hbase := hother m hm hmn k hk
      simp only [super] at hdata hblk
      refine hframe _ hlt (by omega) hbit (fun l heq => ?_) (by omega)
      by_cases hl : (l : Int) < zonesOf inode'.iSize
      · exact (hfits'.fresh l hl).1 (heq ▸ hbase)
      · rw [hfits'.high l (not_lt.mp hl)] at heq
        omega
  exact ⟨hbeside, hself, h.put ⟨hn.1, h.inside _ hn⟩ hmeta hother hfits' hsize' hnum
    (fun m => (used_congr hbeside.map m).trans ⟨.inr, fun hm => hm.elim (fun heq => heq ▸ hn) id⟩)
    hself hbeside.records, hnum⟩

/-- write_inode keeps to its record. -/
theorem Table.record (h : Table disk) (hn : Used disk inode.iInum)
    (hrec : writeInode disk inode ptrs = .ok disk') : Beside disk disk' inode.iInum := by
  refine ⟨writeInode_below hrec (by decide), fun m hm hmn => stored_writeInode_of_ne hrec hmn,
    fun m k b hmn hb => ?_⟩
  obtain ⟨hm, hk, rfl⟩ := hb
  obtain ⟨-, hdata, -⟩ := (h.owned m hm).taken k hk
  have hblk := inodeBlk_lt (h.inside _ hn)
  exact writeInode_of_ne hrec (by omega)

/-- write_inode of an inode whose links are counted. -/
theorem Table.relink (h : Table disk) (hn : Used disk inode.iInum)
    (hsame : stored disk inode.iInum = onDisk inode) (hnum : inode'.iInum = inode.iInum)
    (hsize : inode'.iSize = inode.iSize) (hzone : inode'.iZone = inode.iZone)
    (hrange : InRange inode') (hrec : writeInode disk inode' ptrs = .ok disk') :
    Beside disk disk' inode.iInum ∧ stored disk' inode.iInum = onDisk inode' ∧ Table disk' := by
  obtain ⟨hown, -, hfits, hother⟩ := h.ready hn hsame
  have hmeta := Owned.others_meta h.reserved hown
  have hself : stored disk' inode.iInum = onDisk inode' := by
    rw [← hnum]
    exact stored_writeInode hrec hrange
  have hbeside : Beside disk disk' inode.iInum := by
    rw [← hnum] at hn ⊢
    exact h.record hn hrec
  refine ⟨hbeside, hself, h.put ⟨hn.1, h.inside _ hn⟩ hmeta hother ?_ ?_ hnum
    (fun m => (used_congr hbeside.map m).trans ⟨.inr, fun hm => hm.elim (fun heq => heq ▸ hn) id⟩)
    hself hbeside.records⟩
  · rw [hsize]
    exact hfits.of_block3 (writeInode_below hrec (by decide)) hzone
  · rw [hsize]
    exact ⟨hown.nonneg, hown.le⟩

/-- i_nlink stays a short when it is counted up. -/
theorem inRange_countLink (h : InRange inode) :
    InRange { inode with iNlink := wrapShort (inode.iNlink + 1) } := by
  refine ⟨h.iInum, h.iSize, h.iMode, ?_, h.iZone⟩
  have hlo := @Int.le_bmod (inode.iNlink + 1) 65536 (by decide)
  have hhi := @Int.bmod_lt (inode.iNlink + 1) 65536 (by decide)
  simp only [wrapShort]
  omega

/-- The record of a new inode joins, while a number of the table is free. -/
theorem Table.create (h : Table disk) {disk₁ : Disk} (halloc : allocInodeNr disk = .ok (n, disk₁))
    (hfree : ∃ m < tableSize, ¬InodeBit disk m) {mode : Nat} (hmode : mode < 256 ^ 2)
    (hrec : writeInode disk₁ (newInode n mode) ptrs = .ok disk') :
    ¬Used disk n ∧ (∀ m, Used disk' m ↔ m = n ∨ Used disk m) ∧
      stored disk' n = onDisk (newInode n mode) ∧ (∀ m, m ≠ n → stored disk' m = stored disk m) ∧
      (∀ b, super.sDataStart ≤ b → disk' b = disk b) ∧ Table disk' := by
  obtain ⟨hlt, hbit, hlow, himap, hother⟩ := allocInodeNr_ok halloc
  obtain ⟨hne, -, -, -⟩ := writeInode_ok hrec
  obtain ⟨m, hm, hmfree⟩ := hfree
  have hinside : n < tableSize := by
    by_contra hge
    exact hmfree (hlow m (hm.trans_le (not_lt.mp hge)))
  have hnew : ¬Used disk n := fun hn => hbit hn.2.2
  have hrange : InRange (newInode n mode) :=
    ⟨hlt.trans (by decide), by simp [newInode], hmode, by simp [newInode], by simp [newInode]⟩
  have hnum : (newInode n mode).iInum = n := rfl
  have hself := stored_writeInode hrec hrange
  rw [hnum] at hself
  have hkept : ∀ k, k ≠ n → stored disk' k = stored disk k := by
    intro k hk
    have hge := inodeBlk_ge k
    rw [stored_writeInode_of_ne hrec hk]
    exact stored_congr (hother _ (by show inodeBlk k ≠ 2; omega))
  have hused : ∀ k, Used disk' k ↔ k = n ∨ Used disk k := by
    intro k
    by_cases hk : k < sectorBits
    · have hmap : InodeBit disk' k ↔ k = n ∨ InodeBit disk k := by
        rw [inodeBit_congr (writeInode_below hrec (by decide)) hk]
        exact himap k
      simp only [Used, hmap]
      constructor
      · rintro ⟨hk0, -, rfl | hkb⟩
        · exact .inl rfl
        · exact .inr ⟨hk0, hk, hkb⟩
      · rintro (rfl | ⟨hk0, -, hkb⟩)
        · exact ⟨hne, hk, .inl rfl⟩
        · exact ⟨hk0, hk, .inr hkb⟩
    · have hkn : k ≠ n := fun heq => hk (by rw [heq]; exact hlt)
      exact ⟨fun hu => absurd hu.2.1 hk, fun hu => absurd (hu.resolve_left hkn).2.1 hk⟩
  have hdata : ∀ b, super.sDataStart ≤ b → disk' b = disk b := by
    intro b hb
    have hblk := inodeBlk_lt hinside
    have hb2 : b ≠ super.sImapStart := by
      simp only [super] at hb ⊢
      omega
    have hne : b ≠ inodeBlk (newInode n mode).iInum := by
      show b ≠ inodeBlk n
      omega
    rw [writeInode_of_ne hrec hne, hother b hb2]
  have h3 : disk' 3 = disk 3 := by
    rw [writeInode_below hrec (by decide), hother 3 (by decide)]
  have hsize : 0 ≤ (newInode n mode).iSize ∧ (newInode n mode).iSize ≤ maxSize := by
    simp [newInode, maxSize]
  have hfits : Fits (ZoneBit disk) disk' (newInode n mode) (zonesOf (newInode n mode).iSize) := by
    have hnone : zonesOf (newInode n mode).iSize = 0 := by
      rw [newInode, zonesOf_eq le_rfl (by decide)]
      rfl
    rw [hnone]
    refine ⟨le_rfl, by decide, fun k hk => ?_, fun _ _ => rfl, fun k l hk => ?_, fun b hb => ?_⟩
    · omega
    · omega
    · rw [zoneBit_congr h3 hb]
      refine ⟨.inl, fun hz => hz.elim id ?_⟩
      rintro ⟨k, hk, -⟩
      omega
  have htable : Table disk' := h.put ⟨hne, hinside⟩ h.reserved
    (fun k hk _ l hl => ((h.owned k hk).taken l hl).1) hfits hsize rfl hused hself
    fun k _ hkn => hkept k hkn
  exact ⟨hnew, hused, hself, hkept, hdata, htable⟩

/-- An inode leaves the table, and its zones are free again. -/
theorem Table.remove (h : Table disk) (hn : Used disk n) (hroot : n ≠ 1)
    (hused : ∀ m, Used disk' m ↔ m ≠ n ∧ Used disk m)
    (hkept : ∀ m, Used disk m → m ≠ n → stored disk' m = stored disk m)
    (hbits : ∀ b < sectorBits, ZoneBit disk' b ↔ Others disk (stored disk n) b) : Table disk' := by
  have hmeta := Owned.others_meta h.reserved (h.owned n hn)
  refine ⟨fun b hb => (hbits b (hb.trans (by decide))).mpr (hmeta b hb),
    (hused 1).mpr ⟨hroot.symm, h.root⟩, fun m hm => h.inside m ((hused m).mp hm).2, fun m hm => ?_,
    fun m hm => ?_, fun m hm k hk => ?_, fun a c k l b ha hc => ?_⟩
  · obtain ⟨hmn, hm⟩ := (hused m).mp hm
    rw [hkept m hm hmn]
    exact h.number m hm
  · obtain ⟨hmn, hm⟩ := (hused m).mp hm
    have hown := h.owned m hm
    rw [hkept m hm hmn]
    refine ⟨hown.nonneg, hown.le, fun k hk => ?_, hown.inj⟩
    obtain ⟨-, hdata, hlt⟩ := hown.taken k hk
    exact ⟨(hbits _ hlt).mpr (h.others hn hm hmn hk), hdata, hlt⟩
  · obtain ⟨hmn, hm⟩ := (hused m).mp hm
    rw [hkept m hm hmn] at hk ⊢
    exact h.high m hm k hk
  · have hold : ∀ m i, Owns disk' m i b → Owns disk m i b := by
      rintro m i ⟨hm, hi, hzone⟩
      obtain ⟨hmn, hm⟩ := (hused m).mp hm
      rw [hkept m hm hmn] at hi hzone
      exact ⟨hm, hi, hzone⟩
    exact h.apart a c k l b (hold a k ha) (hold c l hc)

/-- The last put of an inode without links. -/
theorem Table.delete (h : Table disk) (hn : Used disk inode.iInum)
    (hsame : stored disk inode.iInum = onDisk inode) (hroot : inode.iInum ≠ 1)
    (hdel : deleteInode disk inode = .ok (disk', inode')) :
    (∀ m, Used disk' m ↔ m ≠ inode.iInum ∧ Used disk m) ∧
      (∀ m, Used disk m → m ≠ inode.iInum → stored disk' m = stored disk m) ∧ Table disk' := by
  simp only [deleteInode, bind_eq_ok, pure_eq_ok, Except.ok.injEq, Prod.mk.injEq] at hdel
  obtain ⟨⟨disk₁, inode₁⟩, hres, disk₂, hfree, rfl, -⟩ := hdel
  simp only at hfree
  obtain ⟨hown, -, hfits, -⟩ := h.ready hn hsame
  have hmeta := Owned.others_meta h.reserved hown
  obtain ⟨hfits', hkept, hbut⟩ := reserveZone_ok hmeta hfits hres
  rw [if_pos rfl] at hfits'
  obtain ⟨-, himap, hother⟩ := freeInodeNr_ok hfree
  rw [hbut.iInum] at himap
  have hmap : disk₁ 2 = disk 2 := hkept 2 (by decide) (by decide) (h.reserved 2 (by decide))
  have hused : ∀ m, Used disk₂ m ↔ m ≠ inode.iInum ∧ Used disk m := by
    intro m
    by_cases hm : m < sectorBits
    · rw [Used, Used, himap m, inodeBit_congr hmap hm]
      constructor
      · rintro ⟨hm0, -, hmn, hbit⟩
        exact ⟨hmn, hm0, hm, hbit⟩
      · rintro ⟨hmn, hm0, -, hbit⟩
        exact ⟨hm0, hm, hmn, hbit⟩
    · exact ⟨fun hu => absurd hu.2.1 hm, fun hu => absurd hu.2.2.1 hm⟩
  have hrecords : ∀ m, Used disk m → m ≠ inode.iInum → stored disk₂ m = stored disk m := by
    intro m hm _
    have hlt := inodeBlk_lt (h.inside m hm)
    have hge := inodeBlk_ge m
    have hb2 : inodeBlk m ≠ super.sImapStart := by
      simp only [super]
      omega
    refine stored_congr ?_
    rw [hother _ hb2, hkept _ (hlt.trans (by decide)) (by omega) (h.reserved _ hlt)]
  refine ⟨hused, hrecords, h.remove hn hroot hused hrecords fun b hb => ?_⟩
  rw [zoneBit_congr (hother 3 (by decide)) hb, hfits'.bits b hb, hsame]
  constructor
  · rintro (hbit | ⟨k, hk, -⟩)
    · exact hbit
    · omega
  · exact .inl

/-- The table of a new file system: the root inode, without zones. -/
theorem Table.mkfs (h : Layout.mkfs disk ptrs = .ok disk') : Table disk' := by
  obtain ⟨himap, hzmap⟩ := mkfs_ok h
  have hused : ∀ n, Used disk' n ↔ n = 1 := by
    intro n
    constructor
    · rintro ⟨hne, hlt, hbit⟩
      have hsmall := (himap n hlt).mp hbit
      omega
    · rintro rfl
      exact ⟨one_ne_zero, by decide, (himap 1 (by decide)).mpr (by decide)⟩
  have hself : stored disk' 1 = onDisk mkfsRoot :=
    stored_writeInode h ⟨by decide, by decide, by decide, by decide, fun _ => by simp [mkfsRoot]⟩
  have hnone : zonesOf (onDisk mkfsRoot).iSize = 0 := zonesOf_eq le_rfl (by decide)
  have hempty : ∀ n k, Used disk' n → ¬((k : Fin 9) : Int) < zonesOf (stored disk' n).iSize := by
    intro n k hn
    rw [(hused n).mp hn, hself, hnone]
    omega
  refine ⟨fun b hb => (hzmap b (hb.trans (by decide))).mpr hb, (hused 1).mpr rfl, fun n hn => ?_,
    fun n hn => ?_, fun n hn => ?_, fun n hn k _ => ?_, fun n m k l b hn hm => ?_⟩
  · rw [(hused n).mp hn]
    decide
  · rw [(hused n).mp hn, hself]
    rfl
  · have hempty := fun k => hempty n k hn
    rw [(hused n).mp hn, hself] at hempty ⊢
    exact ⟨le_rfl, by decide, fun k hk => absurd hk (hempty k), fun k _ hk => absurd hk (hempty k)⟩
  · rw [(hused n).mp hn, hself]
    rfl
  · exact ((hused n).mp hn.1).trans ((hused m).mp hm.1).symm

end Records

/-! ## Inodes in memory -/

section Memory

variable {v v' : Volume} {p : InodePtr} {addr inum : Nat}

/-- Counts may change, while they stay above zero. -/
theorem Through.recount (h : Through v) (hdisk : v'.disk = v.disk)
    (hlist : v'.inodeList = v.inodeList)
    (hinode : ∀ q ∈ v.inodeList, onDisk (v'.inode q) = onDisk (v.inode q))
    (hcount : ∀ q ∈ v.inodeList, q ≠ .root → 0 < (v'.inode q).iRefcnt) : Through v' := by
  have hnum : ∀ q ∈ v.inodeList, (v'.inode q).iInum = (v.inode q).iInum := fun q hq =>
    (congrArg Inode.iInum (hinode q hq) :)
  refine ⟨hdisk ▸ h.table, hlist ▸ h.nodup, ?_, fun q hq => ?_, fun q hq => ?_,
    fun q hq r hr heq => ?_, fun q hq => ?_⟩
  · rw [hlist, hnum _ h.root.1]
    exact h.root
  · rw [hlist] at hq
    rw [hdisk, hnum q hq]
    exact h.used q hq
  · rw [hlist] at hq
    rw [hdisk, hnum q hq, hinode q hq]
    exact h.same q hq
  · rw [hlist] at hq hr
    rw [hnum q hq, hnum r hr] at heq
    exact h.single q hq r hr heq
  · exact hcount q (hlist ▸ hq)

/-- One inode changes, and its record with it. -/
theorem Through.replace (h : Through v) (hp : p ∈ v.inodeList) {disk' : Disk} {inode' : Inode}
    (htable : Table disk') (hbeside : Beside v.disk disk' (v.inode p).iInum)
    (hnum : inode'.iInum = (v.inode p).iInum)
    (hself : stored disk' (v.inode p).iInum = onDisk inode')
    (hcount : p ≠ .root → 0 < inode'.iRefcnt) :
    Through { v.setInode p inode' with disk := disk' } := by
  have hpself : (v.setInode p inode').inode p = inode' := Function.update_self ..
  have hpother : ∀ q, q ≠ p → (v.setInode p inode').inode q = v.inode q := fun q hq =>
    Function.update_of_ne hq ..
  have hinum : ∀ q, ((v.setInode p inode').inode q).iInum = (v.inode q).iInum := by
    intro q
    by_cases hq : q = p
    · rw [hq, hpself, hnum]
    · rw [hpother q hq]
  refine ⟨htable, h.nodup, ⟨h.root.1, ?_⟩, fun q hq => ?_, fun q hq => ?_, fun q hq r hr heq => ?_,
    fun q hq hroot => ?_⟩
  · exact (hinum .root).trans h.root.2
  · show Used disk' ((v.setInode p inode').inode q).iInum
    rw [hinum, used_congr hbeside.map]
    exact h.used q hq
  · show stored disk' ((v.setInode p inode').inode q).iInum = onDisk ((v.setInode p inode').inode q)
    rw [hinum]
    by_cases hqp : q = p
    · rw [hqp, hpself, hself]
    · have hne : (v.inode q).iInum ≠ (v.inode p).iInum := fun heq => hqp (h.single q hq p hp heq)
      rw [hpother q hqp, hbeside.records _ (h.used q hq) hne]
      exact h.same q hq
  · refine h.single q hq r hr ?_
    rw [← hinum q, ← hinum r]
    exact heq
  · show 0 < ((v.setInode p inode').inode q).iRefcnt
    by_cases hqp : q = p
    · rw [hqp, hpself]
      exact hcount (hqp ▸ hroot)
    · rw [hpother q hqp]
      exact h.counted q hq hroot

/-- A returning _write of an inode in memory. -/
theorem Through.write (h : Through v) (hp : p ∈ v.inodeList) {pos count ret : Int}
    {buf : Nat → UInt8}
    (hwrite : Zone.write v.disk (v.inode p) pos buf count ptrs = .ok (ret, disk', inode')) :
    Through { v.setInode p inode' with disk := disk' } := by
  obtain ⟨hbeside, hself, htable, hnum⟩ := h.table.write (h.used p hp) (h.same p hp) hwrite
  have hcount : inode'.iRefcnt = (v.inode p).iRefcnt := (write_same hwrite).iRefcnt
  refine h.replace hp htable hbeside hnum hself fun hroot => ?_
  rw [hcount]
  exact h.counted p hp hroot

/-- Another link is counted, and the record written. -/
theorem Through.relink (h : Through v) (hp : p ∈ v.inodeList)
    (hrec : writeInode v.disk { v.inode p with iNlink := wrapShort ((v.inode p).iNlink + 1) } ptrs =
      .ok disk') : Through { v.setInode p
        { v.inode p with iNlink := wrapShort ((v.inode p).iNlink + 1) } with disk := disk' } := by
  obtain ⟨-, hold, -⟩ := h.table.ready (h.used p hp) (h.same p hp)
  have hrange : InRange { v.inode p with iNlink := wrapShort ((v.inode p).iNlink + 1) } :=
    inRange_countLink hold
  have hnum : ({ v.inode p with iNlink := wrapShort ((v.inode p).iNlink + 1) } : Inode).iInum =
      (v.inode p).iInum := rfl
  obtain ⟨hbeside, hself, htable⟩ :=
    h.table.relink (h.used p hp) (h.same p hp) hnum rfl rfl hrange hrec
  exact h.replace hp htable hbeside hnum hself (h.counted p hp)

theorem setInode_twice (v : Volume) (p : InodePtr) (inode inode' : Inode) (disk disk' : Disk) :
    { Volume.setInode { v.setInode p inode with disk := disk } p inode' with disk := disk' } =
      { v.setInode p inode' with disk := disk' } := by
  simp only [Volume.setInode, Function.update_idem]

/-- _add_dir_entry of an inode in memory. -/
theorem Through.addDirEntry (h : Through v) (hp : p ∈ v.inodeList) {target : DirEntry} {ret : Int}
    (hadd : Dir.addDirEntry v.disk (v.inode p) target ptrs = .ok (ret, disk', inode')) :
    Through { v.setInode p inode' with disk := disk' } := by
  simp only [Dir.addDirEntry, bind_eq_ok] at hadd
  obtain ⟨⟨found, de⟩, -, hadd⟩ := hadd
  split_ifs at hadd
  · simp only [pure_eq_ok, Except.ok.injEq, Prod.mk.injEq] at hadd
    obtain ⟨-, rfl, rfl⟩ := hadd
    have hkept : { v.setInode p (v.inode p) with disk := v.disk } = v := by
      simp only [Volume.setInode, Function.update_eq_self]
    rw [hkept]
    exact h
  · simp only [bind_eq_ok, pure_eq_ok, Except.ok.injEq, Prod.mk.injEq] at hadd
    obtain ⟨pos, -, ⟨count, disk₁, dir₁⟩, hwrite, disk₂, hrec, -, rfl, rfl⟩ := hadd
    have hdir := h.write hp hwrite
    have hself : (v.setInode p dir₁).inode p = dir₁ := Function.update_self ..
    have hrec' : writeInode disk₁ { (v.setInode p dir₁).inode p with
        iNlink := wrapShort (((v.setInode p dir₁).inode p).iNlink + 1) } ptrs = .ok disk₂ := by
      rw [hself]
      exact hrec
    have hlinked := hdir.relink hp hrec'
    simp only [hself] at hlinked
    rw [setInode_twice] at hlinked
    exact hlinked

/-- An inode that is in use, but not in memory, joins as its record says. -/
theorem Through.join (h : Through v) (hp : p ∉ v.inodeList) {disk' : Disk} {inode' : Inode}
    (htable : Table disk') (hused : Used disk' inode'.iInum)
    (hself : stored disk' inode'.iInum = onDisk inode')
    (hnew : ∀ q ∈ v.inodeList, (v.inode q).iInum ≠ inode'.iInum)
    (hold : ∀ m, Used v.disk m → m ≠ inode'.iInum →
      Used disk' m ∧ stored disk' m = stored v.disk m) (hcount : 0 < inode'.iRefcnt) :
    Through ⟨disk', Function.update v.inode p inode', p :: v.inodeList⟩ := by
  have hpself : Function.update v.inode p inode' p = inode' := Function.update_self ..
  have hpother : ∀ q ∈ v.inodeList, Function.update v.inode p inode' q = v.inode q := fun q hq =>
    Function.update_of_ne (ne_of_mem_of_not_mem hq hp) ..
  refine ⟨htable, List.nodup_cons.mpr ⟨hp, h.nodup⟩, ⟨List.mem_cons_of_mem _ h.root.1, ?_⟩,
    fun q hq => ?_, fun q hq => ?_, fun q hq r hr heq => ?_, fun q hq hroot => ?_⟩
  · simp only [hpother _ h.root.1]
    exact h.root.2
  · rcases List.mem_cons.mp hq with rfl | hq
    · simp only [hpself]
      exact hused
    · simp only [hpother q hq]
      exact (hold _ (h.used q hq) (hnew q hq)).1
  · rcases List.mem_cons.mp hq with rfl | hq
    · simp only [hpself]
      exact hself
    · simp only [hpother q hq]
      rw [(hold _ (h.used q hq) (hnew q hq)).2]
      exact h.same q hq
  · rcases List.mem_cons.mp hq with hqp | hq' <;> rcases List.mem_cons.mp hr with hrp | hr'
    · exact hqp.trans hrp.symm
    · simp only [hqp, hpself, hpother r hr'] at heq
      exact absurd heq.symm (hnew r hr')
    · simp only [hrp, hpself, hpother q hq'] at heq
      exact absurd heq (hnew q hq')
    · simp only [hpother q hq', hpother r hr'] at heq
      exact h.single q hq' r hr' heq
  · rcases List.mem_cons.mp hq with rfl | hq
    · simp only [hpself]
      exact hcount
    · simp only [hpother q hq]
      exact h.counted q hq hroot

/-- An inode leaves memory. -/
theorem Through.leave (h : Through v) (hroot : p ≠ .root)
    (hlist : v'.inodeList = v.inodeList.erase p)
    (hinode : ∀ q, q ≠ p → v'.inode q = v.inode q) (htable : Table v'.disk)
    (hkept : ∀ m, Used v.disk m → m ≠ (v.inode p).iInum →
      Used v'.disk m ∧ stored v'.disk m = stored v.disk m) (hp : p ∈ v.inodeList) : Through v' := by
  have hmem : ∀ q ∈ v'.inodeList, q ≠ p ∧ q ∈ v.inodeList := by
    intro q hq
    rw [hlist, h.nodup.mem_erase_iff] at hq
    exact hq
  have hold : ∀ q ∈ v'.inodeList, Used v'.disk (v.inode q).iInum ∧
      stored v'.disk (v.inode q).iInum = stored v.disk (v.inode q).iInum := by
    intro q hq
    obtain ⟨hqp, hq⟩ := hmem q hq
    exact hkept _ (h.used q hq) fun heq => hqp (h.single q hq p hp heq)
  refine ⟨htable, hlist ▸ h.nodup.erase p, ⟨?_, ?_⟩, fun q hq => ?_, fun q hq => ?_,
    fun q hq r hr heq => ?_, fun q hq hqr => ?_⟩
  · rw [hlist]
    exact (List.mem_erase_of_ne hroot.symm).mpr h.root.1
  · rw [hinode _ hroot.symm]
    exact h.root.2
  · rw [hinode q (hmem q hq).1]
    exact (hold q hq).1
  · rw [hinode q (hmem q hq).1, (hold q hq).2]
    exact h.same q (hmem q hq).2
  · obtain ⟨hqp, hq⟩ := hmem q hq
    obtain ⟨hrp, hr⟩ := hmem r hr
    rw [hinode q hqp, hinode r hrp] at heq
    exact h.single q hq r hr heq
  · obtain ⟨hqp, hq⟩ := hmem q hq
    rw [hinode q hqp]
    exact h.counted q hq hqr

/-- What get_inode leaves: an inode of that number, with one more reference. -/
structure Got (v v' : Volume) (inum : Nat) (p : InodePtr) : Prop where
  through : Through v'
  disk : v'.disk = v.disk
  number : (v'.inode p).iInum = inum
  others : ∀ q, q ≠ p → v'.inode q = v.inode q
  count : (v'.inode p).iRefcnt = (v.inode p).iRefcnt + 1
  list : p ∈ v.inodeList ∧ v'.inodeList = v.inodeList ∨
    p ∉ v.inodeList ∧ v'.inodeList = p :: v.inodeList

theorem Got.mem (h : Got v v' inum p) : p ∈ v'.inodeList ∧ ∀ q ∈ v.inodeList, q ∈ v'.inodeList := by
  rcases h.list with ⟨hp, hlist⟩ | ⟨-, hlist⟩
  · rw [hlist]
    exact ⟨hp, fun _ hq => hq⟩
  · rw [hlist]
    exact ⟨List.mem_cons_self .., fun _ hq => List.mem_cons_of_mem _ hq⟩

/-- One inode of the list gets another reference. -/
theorem Through.hold (h : Through v) (hp : p ∈ v.inodeList)
    (hpos : p ≠ .root → 0 < (v.inode p).iRefcnt) :
    Got v (v.setInode p { v.inode p with iRefcnt := (v.inode p).iRefcnt + 1 })
      (v.inode p).iInum p := by
  have hself : (v.setInode p { v.inode p with iRefcnt := (v.inode p).iRefcnt + 1 }).inode p =
      { v.inode p with iRefcnt := (v.inode p).iRefcnt + 1 } := Function.update_self ..
  have hother : ∀ q, q ≠ p → (v.setInode p
      { v.inode p with iRefcnt := (v.inode p).iRefcnt + 1 }).inode q = v.inode q := fun q hq =>
    Function.update_of_ne hq ..
  refine ⟨h.recount rfl rfl (fun q _ => ?_) fun q hq hqr => ?_, rfl, by rw [hself], hother,
    by rw [hself], .inl ⟨hp, rfl⟩⟩
  · by_cases hqp : q = p
    · rw [hqp, hself]
      rfl
    · rw [hother q hqp]
  · by_cases hqp : q = p
    · rw [hqp, hself]
      have hone := hpos (hqp ▸ hqr)
      simp only
      omega
    · rw [hother q hqp]
      exact h.counted q hq hqr

/-- get_inode, into memory that holds no negative count. -/
theorem Through.getInode (h : Through v) (hget : getInode v inum addr = .ok (p, v'))
    (hroot : inum = 1 → 0 < (v.inode .root).iRefcnt)
    (hcount : findInode v inum = none → 0 ≤ (v.inode (.obj addr)).iRefcnt) : Got v v' inum p := by
  rcases getInode_ok hget with ⟨hfind, rfl⟩ | ⟨hnone, rfl, hp, inode, hread, rfl⟩
  · obtain ⟨hp, rfl, -⟩ := findInode_some hfind
    exact h.hold hp (h.counted p hp)
  · obtain ⟨hn0, hlt, hbit, hnum, href, hdecode⟩ := readInode_ok hread
    have hrecord : stored v.disk inum = onDisk inode := by
      rw [hdecode, onDisk_decode, stored]
    clear hdecode
    subst hnum
    have hnew : ∀ q ∈ v.inodeList, (v.inode q).iInum ≠ inode.iInum := by
      intro q hq heq
      have hpos : 0 < (v.inode q).iRefcnt := by
        by_cases hqr : q = .root
        · subst hqr
          exact hroot (by rw [← heq, h.root.2])
        · exact h.counted q hq hqr
      have hmiss := List.find?_eq_none.mp hnone q hq
      simp only [heq, decide_eq_true_eq, true_and, not_not] at hmiss
      omega
    have hself : Function.update v.inode (.obj addr)
        { inode with iRefcnt := inode.iRefcnt + 1 } (.obj addr) =
          { inode with iRefcnt := inode.iRefcnt + 1 } := Function.update_self ..
    have hpos : 0 < inode.iRefcnt + 1 := by
      have hzero := hcount hnone
      omega
    refine ⟨h.join hp h.table ⟨hn0, hlt, hbit⟩ hrecord hnew (fun m hm _ => ⟨hm, rfl⟩) hpos, rfl, ?_,
      fun q hq => Function.update_of_ne hq .., ?_, .inr ⟨hp, rfl⟩⟩
    · exact (congrArg Inode.iInum hself :)
    · rw [← href]
      exact (congrArg Inode.iRefcnt hself :)

/-- create_inode, while a number of the table is free. -/
theorem Through.createInode (h : Through v) {mode : Nat}
    (hcreate : createInode v mode addr ptrs = .ok (p, v'))
    (hfree : ∃ m < tableSize, ¬InodeBit v.disk m) (hmode : mode < 256 ^ 2) :
    ∃ m, ¬Used v.disk m ∧ m ≠ 1 ∧ Through v' ∧
      (∀ k, Used v'.disk k ↔ k = m ∨ Used v.disk k) ∧
      (∀ k, k ≠ m → stored v'.disk k = stored v.disk k) ∧
      (∀ b, super.sDataStart ≤ b → v'.disk b = v.disk b) ∧ p ∉ v.inodeList ∧ p ≠ .root ∧
      v'.inode = Function.update v.inode p (newInode m mode) ∧ v'.inodeList = p :: v.inodeList := by
  obtain ⟨rfl, hp, n, disk, halloc, -, hrec, hinode, hlist⟩ := createInode_ok hcreate
  obtain ⟨hnew, hused, hself, hkept, hdata, htable⟩ := h.table.create halloc hfree hmode hrec
  have hvol : v' = ⟨v'.disk, Function.update v.inode (.obj addr) (newInode n mode),
      .obj addr :: v.inodeList⟩ := by
    cases v'
    simp only at hinode hlist
    rw [hinode, hlist]
  refine ⟨n, hnew, fun heq => hnew (heq ▸ h.table.root), ?_, hused, hkept, hdata, hp, nofun, hinode,
    hlist⟩
  rw [hvol]
  refine h.join hp htable ((hused n).mpr (.inl rfl)) hself (fun q hq heq => ?_)
    (fun m hm hmn => ⟨(hused m).mpr (.inr hm), hkept m hmn⟩) (by show (0 : Int) < 1; decide)
  have hq' := h.used q hq
  rw [heq] at hq'
  exact hnew hq'

/-- put_inode takes one reference away, or the inode off the list. -/
theorem Through.putInode (h : Through v) (hp : p ∈ v.inodeList)
    (hput : putInode v p ptrs = .ok v') :
    Through v' ∧ (∀ q, q ≠ p → v'.inode q = v.inode q) ∧
      ((v'.inodeList = v.inodeList ∧ v'.inode p =
          { v.inode p with iRefcnt := (v.inode p).iRefcnt - 1 }) ∨
        (v.inode p).iRefcnt = 1 ∧ p ≠ .root ∧ v'.inodeList = v.inodeList.erase p) := by
  obtain ⟨hpos, ⟨hmany, rfl⟩ | ⟨hone, hroot, hlist, hinode, hend⟩⟩ := putInode_ok hput
  · have hself : (v.setInode p { v.inode p with iRefcnt := (v.inode p).iRefcnt - 1 }).inode p =
        { v.inode p with iRefcnt := (v.inode p).iRefcnt - 1 } := Function.update_self ..
    have hother : ∀ q, q ≠ p → (v.setInode p
        { v.inode p with iRefcnt := (v.inode p).iRefcnt - 1 }).inode q = v.inode q := fun q hq =>
      Function.update_of_ne hq ..
    refine ⟨h.recount rfl rfl (fun q _ => ?_) fun q hq hqr => ?_, hother, .inl ⟨rfl, hself⟩⟩
    · by_cases hqp : q = p
      · rw [hqp, hself]
        rfl
      · rw [hother q hqp]
    · by_cases hqp : q = p
      · rw [hqp, hself]
        simp only
        omega
      · rw [hother q hqp]
        exact h.counted q hq hqr
  have hsame := h.same p hp
  refine ⟨?_, hinode, .inr ⟨hone, hroot, hlist⟩⟩
  obtain ⟨-, hdel⟩ | ⟨-, -, hrec⟩ := hend
  · have hnot : ({ v.inode p with iRefcnt := 0 } : Inode).iInum ≠ 1 := fun heq =>
      hroot (h.single p hp .root h.root.1 (heq.trans h.root.2.symm))
    have hused' : Used v.disk ({ v.inode p with iRefcnt := 0 } : Inode).iInum := h.used p hp
    obtain ⟨hused, hrecords, htable⟩ := h.table.delete hused' hsame hnot hdel
    exact h.leave hroot hlist hinode htable
      (fun m hm hmp => ⟨(hused m).mpr ⟨hmp, hm⟩, hrecords m hm hmp⟩) hp
  · have hrange : InRange { v.inode p with iRefcnt := 0 } := by
      have hstored := stored_inRange v.disk (v.inode p).iInum
      rw [hsame] at hstored
      exact hstored
    have hnum : ({ v.inode p with iRefcnt := 0 } : Inode).iInum = (v.inode p).iInum := rfl
    obtain ⟨hbeside, -, htable⟩ := h.table.relink (h.used p hp) hsame hnum rfl rfl hrange hrec
    exact h.leave hroot hlist hinode htable
      (fun m hm hmp => ⟨(used_congr hbeside.map m).mpr hm, hbeside.records m hm hmp⟩) hp

/-- One inode in memory, as its record says. -/
theorem Through.start (htable : Table disk) {memory : InodePtr → Inode}
    (hself : stored disk 1 = onDisk inode) :
    Through ⟨disk, Function.update memory .root inode, [.root]⟩ := by
  have hnum : inode.iInum = 1 := by
    have hnumber := htable.number 1 htable.root
    rw [hself] at hnumber
    exact hnumber
  have hroot : Function.update memory .root inode .root = inode := Function.update_self ..
  refine ⟨htable, List.nodup_singleton _, ⟨List.mem_singleton_self _, ?_⟩, fun q hq => ?_,
    fun q hq => ?_, fun q hq r hr _ => ?_, fun q hq hne => ?_⟩
  · simp only [hroot, hnum]
  · rw [List.mem_singleton.mp hq]
    simp only [hroot, hnum]
    exact htable.root
  · rw [List.mem_singleton.mp hq]
    simp only [hroot, hnum]
    exact hself
  · exact (List.mem_singleton.mp hq).trans (List.mem_singleton.mp hr).symm
  · exact absurd (List.mem_singleton.mp hq) hne

end Memory

end RxdOs.Fs.InodeTable
