/- RxdOs/Fs/InodeRegion
   source: fs/fs.c (create_inode, write_inode, mkfs), fs/bitmap.h
   digest: The inode bitmap hands out more numbers than the inode table has records, so
   records stay in the table exactly while one of its numbers is free at every creation. -/

import RxdOs.Fs.ZoneAccounting

set_option autoImplicit false
set_option relaxedAutoImplicit false

namespace RxdOs.Fs.InodeRegion

open RxdOs.Base.Assert RxdOs.Lib.Execution RxdOs.Fs.Bitmap RxdOs.Fs.Layout RxdOs.Fs.InodeCache
  RxdOs.Fs.ZoneAccounting

/-- The record of every allocated number belongs into the inode table. -/
def InRegion (v : Volume) : Prop :=
  ∀ n < sectorBits, n ≠ 0 → InodeBit v.disk n →
    super.sItableStart ≤ inodeBlk n ∧ inodeBlk n < super.sItableStart + super.sItableCount

/-- The number of records the inode table has room for. -/
def tableSize : Nat := super.sItableCount * inodePerBlk

/-- An inode is created only while one of the table's numbers is free. -/
def RoomForCreate (v : Volume) : Call → Prop
  | .create _ _ _ => ∃ n < tableSize, ¬InodeBit v.disk n
  | _ => True

variable {v v' : Volume}

theorem inodeBlk_lt_iff (n : Nat) :
    inodeBlk n < super.sItableStart + super.sItableCount ↔ n < tableSize := by
  have hper : inodePerBlk = 14 := rfl
  simp only [inodeBlk, tableSize, hper, super]
  omega

theorem inRegion_iff : InRegion v ↔ ∀ n < sectorBits, n ≠ 0 → InodeBit v.disk n → n < tableSize := by
  simp only [InRegion, inodeBlk_lt_iff]
  exact ⟨fun h n hn hne hbit => (h n hn hne hbit).2,
    fun h n hn hne hbit => ⟨Nat.le_add_left _ _, h n hn hne hbit⟩⟩

/-- Operations other than create_inode add no inode and change no number. -/
theorem nums_step (h : Inv v) {a : Call} (ha : ∀ mode addr ptrs, a ≠ .create mode addr ptrs)
    (st : Step v a v') {q : InodePtr} (hq : q ∈ v'.inodeList) :
    q ∈ v.inodeList ∧ (v'.inode q).iInum = (v.inode q).iInum := by
  have hset : ∀ p inode, inode.iInum = (v.inode p).iInum →
      ((v.setInode p inode).inode q).iInum = (v.inode q).iInum := by
    intro p inode hnum
    simp only [Volume.setInode, Function.update_apply]
    split_ifs with hqp
    · rw [hnum, hqp]
    · rfl
  cases a with
  | create mode addr ptrs => exact absurd rfl (ha mode addr ptrs)
  | write p pos buf count ptrs =>
    simp only [Step, call, bind_eq_ok, access_eq_ok, pure_eq_ok, Except.ok.injEq] at st
    obtain ⟨_, hp, ⟨ret, disk, inode⟩, hcall, rfl⟩ := st
    obtain ⟨h0, hs⟩ := h.size p hp
    exact ⟨hq, hset p inode (ZoneMap.write_ok (others_meta v p) h0 hs (h.fits hp) hcall).2.2.1.iInum⟩
  | truncate p length =>
    simp only [Step, call, bind_eq_ok, access_eq_ok, pure_eq_ok, Except.ok.injEq] at st
    obtain ⟨_, hp, ⟨disk, inode⟩, hcall, rfl⟩ := st
    obtain ⟨-, -, hsame⟩ := ZoneMap.reserveZone_ok (others_meta v p) (h.fits hp) hcall
    exact ⟨hq, hset p { inode with iSize := length } hsame.iInum⟩
  | put p ptrs =>
    simp only [Step, call, bind_eq_ok, access_eq_ok] at st
    obtain ⟨_, hp, hcall⟩ := st
    obtain ⟨-, ⟨-, rfl⟩ | ⟨-, -, hlist, hinode, -⟩⟩ := putInode_ok hcall
    · exact ⟨hq, hset p _ rfl⟩
    · rw [hlist, h.nodup.mem_erase_iff] at hq
      exact ⟨hq.2, by rw [hinode q hq.1]⟩
  | sync p ptrs =>
    simp only [Step, call, bind_eq_ok, access_eq_ok, pure_eq_ok, Except.ok.injEq] at st
    obtain ⟨_, hp, disk, hcall, rfl⟩ := st
    exact ⟨hq, rfl⟩

theorem imap_step (h : Inv v) {a : Call} (ha : ∀ mode addr ptrs, a ≠ .create mode addr ptrs)
    (st : Step v a v') {n : Nat} (hn : n < sectorBits) (hbit : InodeBit v'.disk n) :
    InodeBit v.disk n := by
  rw [(h.step st).imap n hn] at hbit
  rw [h.imap n hn]
  refine hbit.imp_right fun ⟨p, hp, hnum⟩ => ?_
  obtain ⟨hmem, heq⟩ := nums_step h ha st hp
  exact ⟨p, hmem, heq.symm.trans hnum⟩

/-- create_inode takes the lowest free number. -/
theorem create_step {mode addr : Nat} {ptrs : Pointers} (st : Step v (.create mode addr ptrs) v') :
    ∃ n < sectorBits, n ≠ 0 ∧ (∀ j < n, InodeBit v.disk j) ∧ ¬InodeBit v.disk n ∧
      ∀ k < sectorBits, InodeBit v'.disk k ↔ k = n ∨ InodeBit v.disk k := by
  simp only [Step, call, bind_eq_ok, pure_eq_ok, Except.ok.injEq] at st
  obtain ⟨⟨p, v₁⟩, hcall, rfl⟩ := st
  obtain ⟨-, -, n, disk, halloc, hne, hrec, -, -⟩ := createInode_ok hcall
  obtain ⟨hn, hfree, hbelow, himap, -⟩ := allocInodeNr_ok halloc
  refine ⟨n, hn, hne, hbelow, hfree, fun k hk => ?_⟩
  rw [inodeBit_congr (writeInode_below hrec (by decide)) hk]
  exact himap k

/-- Along a run from mkfs the records stay in the inode table exactly when every inode is
created while one of the table's numbers is free. -/
theorem records_in_region_iff {memory : InodePtr → Inode} {disk : Disk} {ptrs : Pointers}
    {v₀ : Volume} (h₀ : mkfsVolume memory disk ptrs = .ok v₀) {tr : List (Call × Volume)}
    (h : Exec Step v₀ tr) : Always InRegion v₀ tr ↔ Guarded RoomForCreate v₀ tr := by
  have hstart : Inv v₀ ∧ InRegion v₀ := by
    refine ⟨.mkfs h₀, inRegion_iff.mpr fun n hn _ hbit => ?_⟩
    have htwo := ((mkfsVolume_ok h₀).2.2.1 n hn).mp hbit
    exact htwo.trans (by decide)
  refine @Exec.always_iff_guarded _ _ _ (fun v => Inv v ∧ InRegion v) _ _ (fun _ hv => hv.2)
    (fun v a v' hv hroom st => ?_) (fun v a v' hv hfull st => ?_) _ _ h hstart
  · refine ⟨hv.1.step st, inRegion_iff.mpr fun n hn hne hbit => ?_⟩
    have hold := inRegion_iff.mp hv.2 n hn hne
    cases a with
    | create mode addr ptrs =>
      obtain ⟨m, -, -, hbelow, -, himap⟩ := create_step st
      obtain ⟨k, hk, hfree⟩ := hroom
      rcases (himap n hn).mp hbit with rfl | hbit
      · -- the lowest free number is not above the free one of the table
        exact (not_lt.mp fun hlt => hfree (hbelow k hlt)).trans_lt hk
      · exact hold hbit
    | _ => exact hold (imap_step hv.1 (by simp) st hn hbit)
  · cases a with
    | create mode addr ptrs =>
      obtain ⟨m, hm, hne, -, hfree, himap⟩ := create_step st
      intro hregion
      refine hfull ⟨m, inRegion_iff.mp hregion m hm hne ((himap m hm).mpr (.inl rfl)), hfree⟩
    | _ => exact absurd trivial hfull

/-! ## Creating one inode after the other -/

/-- The numbers below `m` are taken, and the objects from address `m` on are not handed out. -/
structure Filled (v : Volume) (m : Nat) : Prop where
  pos : 0 < m
  bits : ∀ n < sectorBits, InodeBit v.disk n ↔ n < m
  fresh : ∀ a ≥ m, .obj a ∉ v.inodeList

theorem filled_mkfs {memory : InodePtr → Inode} {disk : Disk} {ptrs : Pointers}
    (h₀ : mkfsVolume memory disk ptrs = .ok v) : Filled v 2 := by
  obtain ⟨hlist, -, hbits, -⟩ := mkfsVolume_ok h₀
  exact ⟨by decide, hbits, fun a _ => by simp [hlist]⟩

/-- Creating succeeds while any number of the bitmap is free. -/
theorem Filled.create {m : Nat} (h : Filled v m) (hm : m < sectorBits) (mode : Nat)
    (ptrs : Pointers) : ∃ v', Step v (.create mode m ptrs) v' ∧ Filled v' (m + 1) := by
  have hfree : ¬InodeBit v.disk m := by
    rw [h.bits m hm]
    exact lt_irrefl m
  obtain ⟨⟨n, disk⟩, halloc⟩ := allocInodeNr_of_free hm hfree
  obtain ⟨hn, hnfree, hbelow, himap, -⟩ := allocInodeNr_ok halloc
  have hnm : n = m := by
    rw [h.bits n hn] at hnfree
    by_contra hne
    exact hfree (hbelow m (by omega))
  subst hnm
  obtain ⟨disk', hrec⟩ := @writeInode_of_bit _ (newInode n mode) ptrs h.pos.ne' hn
    ((himap n).mpr (.inl rfl))
  have st : Step v (.create mode n ptrs) ⟨disk', Function.update v.inode (.obj n)
      (newInode n mode), .obj n :: v.inodeList⟩ := by
    simp only [Step, call, createInode, halloc, ok_bind, allocInode,
      access_pos (h.fresh n le_rfl), pure_eq_ok, hrec]
  refine ⟨_, st, by omega, fun k hk => ?_, fun a ha => ?_⟩
  · rw [inodeBit_congr (writeInode_below hrec (by decide)) hk, himap, h.bits k hk]
    omega
  · simp only [List.mem_cons, InodePtr.obj.injEq, not_or]
    exact ⟨by omega, h.fresh a (by omega)⟩

theorem Filled.creates {m : Nat} (h : Filled v m) (j : Nat) (hm : m + j ≤ sectorBits) :
    ∃ tr, Exec Step v tr ∧ Filled (last v tr) (m + j) := by
  induction j generalizing v m with
  | zero => exact ⟨[], .nil v, h⟩
  | succ j ih =>
    obtain ⟨v', st, hv'⟩ := h.create (by omega) 0 fun _ => 0
    obtain ⟨tr, htr, hlast⟩ := ih hv' (by omega)
    refine ⟨_, .cons st htr, ?_⟩
    rw [last_cons, show m + (j + 1) = m + 1 + j by omega]
    exact hlast

theorem records_in_region_iff_one : ∃ v₀ tr, mkfsVolume (fun _ => mkfsRoot) (fun _ => zeroBlock)
    (fun _ => 0) = .ok v₀ ∧ Exec Step v₀ tr ∧ tr ≠ [] ∧ Always InRegion v₀ tr := by
  obtain ⟨v₀, h₀⟩ := mkfsVolume_total (fun _ => mkfsRoot) (fun _ => zeroBlock) fun _ => 0
  have hfilled := filled_mkfs h₀
  obtain ⟨v₁, st, -⟩ := hfilled.create (by decide) 0 fun _ => 0
  have hexec : Exec Step v₀ [(.create 0 2 fun _ => 0, v₁)] := .cons st (.nil v₁)
  refine ⟨v₀, _, h₀, hexec, by simp, (records_in_region_iff h₀ hexec).mpr ⟨⟨2, by decide, ?_⟩, trivial⟩⟩
  rw [hfilled.bits 2 (by decide)]
  exact lt_irrefl 2

/-- The 83rd inode created on a fresh disk gets number 84, whose record is the first data
block. -/
theorem record_leaves_table : ∃ v₀ tr, mkfsVolume (fun _ => mkfsRoot) (fun _ => zeroBlock)
    (fun _ => 0) = .ok v₀ ∧ Exec Step v₀ tr ∧ InodeBit (last v₀ tr).disk 84 ∧
      inodeBlk 84 = super.sDataStart ∧ ¬Always InRegion v₀ tr := by
  obtain ⟨v₀, h₀⟩ := mkfsVolume_total (fun _ => mkfsRoot) (fun _ => zeroBlock) fun _ => 0
  obtain ⟨tr, htr, hlast⟩ := (filled_mkfs h₀).creates 83 (by decide)
  have hbit : InodeBit (last v₀ tr).disk 84 := (hlast.bits 84 (by decide)).mpr (by decide)
  refine ⟨v₀, tr, h₀, htr, hbit, rfl, fun halways => ?_⟩
  exact absurd (halways.last 84 (by decide) (by decide) hbit).2 (by decide)

end RxdOs.Fs.InodeRegion
