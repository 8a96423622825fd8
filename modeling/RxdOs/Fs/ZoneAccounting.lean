/- RxdOs/Fs/ZoneAccounting
   source: fs/fs.c, fs/bitmap.h
   digest: Over whole runs from mkfs the zone bitmap holds the metadata area and, once each,
   the zones of the existing inodes. -/

import RxdOs.Lib.Execution
import RxdOs.Fs.InodeCache
import RxdOs.Fs.ZoneMap

set_option autoImplicit false
set_option relaxedAutoImplicit false

namespace RxdOs.Fs.ZoneAccounting

open RxdOs.Base.Assert RxdOs.Lib.Execution RxdOs.Fs.Bitmap RxdOs.Fs.Layout RxdOs.Fs.Zone
  RxdOs.Fs.ZoneMap RxdOs.Fs.InodeCache

/-- The operations on the inodes of a volume. -/
inductive Call
  | create (mode addr : Nat) (ptrs : Pointers)
  | write (p : InodePtr) (pos : Int) (buf : Nat → UInt8) (count : Int) (ptrs : Pointers)
  | truncate (p : InodePtr) (length : Nat)
  | put (p : InodePtr) (ptrs : Pointers)
  | sync (p : InodePtr) (ptrs : Pointers)

/-- One operation, on an existing inode. -/
def call (v : Volume) : Call → Kernel Volume
  | .create mode addr ptrs => do
    let (_, v) ← createInode v mode addr ptrs
    pure v
  | .write p pos buf count ptrs => do
    access (p ∈ v.inodeList) "inode"
    let (_, disk, inode) ← Zone.write v.disk (v.inode p) pos buf count ptrs
    pure { v.setInode p inode with disk := disk }
  | .truncate p length => do
    access (p ∈ v.inodeList) "inode"
    let (disk, inode) ← reserveZone v.disk (v.inode p) ((length + 1023) / 1024 : Nat) true
    pure { v.setInode p { inode with iSize := length } with disk := disk }
  | .put p ptrs => do
    access (p ∈ v.inodeList) "inode"
    putInode v p ptrs
  | .sync p ptrs => do
    access (p ∈ v.inodeList) "inode"
    let disk ← writeInode v.disk (v.inode p) ptrs
    pure { v with disk := disk }

def Step (v : Volume) (a : Call) (v' : Volume) : Prop := call v a = .ok v'

/-! ## The accounts -/

/-- The number of zones an inode of this size has. -/
def nzone (inode : Inode) : Int := zonesOf inode.iSize

/-- Zone `k` of an existing inode is block `b`. -/
def Owns (v : Volume) (p : InodePtr) (k : Fin 9) (b : Nat) : Prop :=
  p ∈ v.inodeList ∧ (k : Int) < nzone (v.inode p) ∧ (v.inode p).iZone k = b

structure Inv (v : Volume) : Prop where
  zmap : ∀ b < sectorBits, ZoneBit v.disk b ↔ b < super.sDataStart ∨ ∃ p k, Owns v p k b
  data : ∀ p k b, Owns v p k b → super.sDataStart ≤ b ∧ b < sectorBits
  once : ∀ p q k l b, Owns v p k b → Owns v q l b → p = q ∧ k = l
  high : ∀ p ∈ v.inodeList, ∀ k : Fin 9, nzone (v.inode p) ≤ (k : Int) → (v.inode p).iZone k = 0
  size : ∀ p ∈ v.inodeList, 0 ≤ (v.inode p).iSize ∧ (v.inode p).iSize ≤ maxSize
  nodup : v.inodeList.Nodup
  imap : ∀ n < sectorBits, InodeBit v.disk n ↔ n = 0 ∨ ∃ p ∈ v.inodeList, (v.inode p).iInum = n
  inum : ∀ p ∈ v.inodeList, 1 ≤ (v.inode p).iInum ∧ (v.inode p).iInum < sectorBits
  inums : ∀ p ∈ v.inodeList, ∀ q ∈ v.inodeList, (v.inode p).iInum = (v.inode q).iInum → p = q
  root : ∀ p ∈ v.inodeList, (v.inode p).iNlink ≠ 0 → p = .root

/-- What the other inodes and the metadata area hold. -/
def Others (v : Volume) (p : InodePtr) (b : Nat) : Prop :=
  b < super.sDataStart ∨ ∃ q k, q ≠ p ∧ Owns v q k b

variable {v v' : Volume}

theorem nzone_range {inode : Inode} (h : 0 ≤ inode.iSize ∧ inode.iSize ≤ maxSize) :
    0 ≤ nzone inode ∧ nzone inode ≤ 7 := by
  obtain ⟨h0, hn⟩ := h
  rw [nzone, zonesOf_eq h0 hn]
  simp only [maxSize] at hn
  omega

/-- Seen from one inode, the bitmap holds its zones and those of the others. -/
theorem Inv.fits (h : Inv v) {p : InodePtr} (hp : p ∈ v.inodeList) :
    Fits (Others v p) v.disk (v.inode p) (nzone (v.inode p)) := by
  obtain ⟨h0, h7⟩ := nzone_range (h.size p hp)
  refine ⟨h0, h7, fun k hk => ⟨?_, (h.data p k _ ⟨hp, hk, rfl⟩).2⟩, h.high p hp,
    fun k l hk hl heq => (h.once p p k l _ ⟨hp, hk, rfl⟩ ⟨hp, hl, heq.symm⟩).2, fun b hb => ?_⟩
  · rintro (hlt | ⟨q, l, hq, hown⟩)
    · exact absurd hlt (not_lt.mpr (h.data p k _ ⟨hp, hk, rfl⟩).1)
    · exact hq (h.once q p l k _ hown ⟨hp, hk, rfl⟩).1
  · rw [h.zmap b hb, Others]
    constructor
    · rintro (hlt | ⟨q, k, hown⟩)
      · exact .inl (.inl hlt)
      · by_cases hq : q = p
        · exact .inr ⟨k, hq ▸ hown.2⟩
        · exact .inl (.inr ⟨q, k, hq, hown⟩)
    · rintro ((hlt | ⟨q, k, -, hown⟩) | ⟨k, hk⟩)
      · exact .inl hlt
      · exact .inr ⟨q, k, hown⟩
      · exact .inr ⟨p, k, hp, hk⟩

/-- An inode keeps its number and links and gets new zones that fit beside the others'. -/
theorem Inv.replace (h : Inv v) {p : InodePtr} (hp : p ∈ v.inodeList) {disk : Disk} {inode : Inode}
    (hfits : Fits (Others v p) disk inode (nzone inode))
    (hsize : 0 ≤ inode.iSize ∧ inode.iSize ≤ maxSize) (hinum : inode.iInum = (v.inode p).iInum)
    (hlink : inode.iNlink = (v.inode p).iNlink)
    (himap : ∀ n < sectorBits, InodeBit disk n ↔ InodeBit v.disk n) :
    Inv { v.setInode p inode with disk := disk } := by
  have hself : (v.setInode p inode).inode p = inode := Function.update_self ..
  have hother : ∀ q, q ≠ p → (v.setInode p inode).inode q = v.inode q := fun q hq =>
    Function.update_of_ne hq ..
  have hnum : ∀ q, ((v.setInode p inode).inode q).iInum = (v.inode q).iInum := by
    intro q
    by_cases hq : q = p
    · rw [hq, hself, hinum]
    · rw [hother q hq]
  have howns : ∀ q k b, Owns { v.setInode p inode with disk := disk } q k b ↔
      if q = p then (k : Int) < nzone inode ∧ inode.iZone k = b else Owns v q k b := by
    intro q k b
    simp only [Owns]
    split_ifs with hq
    · rw [hq, hself]
      exact and_iff_right hp
    · rw [hother q hq]
      rfl
  refine ⟨fun b hb => ?_, fun q k b hown => ?_, fun q r k l b hq hr => ?_, fun q hq k hk => ?_,
    fun q hq => ?_, h.nodup, fun n hn => ?_, fun q hq => ?_, fun q hq r hr heq => ?_,
    fun q hq hne => ?_⟩
  · rw [hfits.bits b hb, Others]
    simp only [howns]
    constructor
    · rintro ((hlt | ⟨q, k, hq, hown⟩) | ⟨k, hk⟩)
      · exact .inl hlt
      · exact .inr ⟨q, k, by rwa [if_neg hq]⟩
      · exact .inr ⟨p, k, by rwa [if_pos rfl]⟩
    · rintro (hlt | ⟨q, k, hown⟩)
      · exact .inl (.inl hlt)
      · split_ifs at hown with hq
        · exact .inr ⟨k, hown⟩
        · exact .inl (.inr ⟨q, k, hq, hown⟩)
  · rw [howns] at hown
    split_ifs at hown with hq
    · obtain ⟨hk, rfl⟩ := hown
      have hfresh := hfits.fresh k hk
      exact ⟨not_lt.mp fun hlt => hfresh.1 (.inl hlt), hfresh.2⟩
    · exact h.data q k b hown
  · rw [howns] at hq hr
    split_ifs at hq hr with hqp hrp hrp
    · exact ⟨hqp.trans hrp.symm, hfits.inj k l hq.1 hr.1 (hq.2.trans hr.2.symm)⟩
    · exact absurd (.inr ⟨r, l, hrp, hq.2 ▸ hr⟩) (hfits.fresh k hq.1).1
    · exact absurd (.inr ⟨q, k, hqp, hr.2 ▸ hq⟩) (hfits.fresh l hr.1).1
    · exact h.once q r k l b hq hr
  · by_cases hqp : q = p
    · simp only [hqp, hself] at hk ⊢
      exact hfits.high k hk
    · simp only [hother q hqp] at hk ⊢
      exact h.high q hq k hk
  · by_cases hqp : q = p
    · simp only [hqp, hself]
      exact hsize
    · simp only [hother q hqp]
      exact h.size q hq
  · simp only [himap n hn, h.imap n hn, hnum]
    rfl
  · simp only [hnum]
    exact h.inum q hq
  · simp only [hnum] at heq
    exact h.inums q hq r hr heq
  · by_cases hqp : q = p
    · simp only [hqp, hself, hlink] at hne
      exact hqp ▸ h.root p hp hne
    · simp only [hother q hqp] at hne
      exact h.root q hq hne

/-- An inode whose zones have all been returned leaves. -/
theorem Inv.remove (h : Inv v) {p : InodePtr} (hp : p ∈ v.inodeList)
    (hlist : v'.inodeList = v.inodeList.erase p) (hinode : ∀ q, q ≠ p → v'.inode q = v.inode q)
    (hzone : ∀ b < sectorBits, ZoneBit v'.disk b ↔ Others v p b)
    (himap : ∀ n < sectorBits, InodeBit v'.disk n ↔ n ≠ (v.inode p).iInum ∧ InodeBit v.disk n) :
    Inv v' := by
  have hmem : ∀ q, q ∈ v'.inodeList ↔ q ≠ p ∧ q ∈ v.inodeList := by
    intro q
    rw [hlist, h.nodup.mem_erase_iff]
  have howns : ∀ q k b, Owns v' q k b ↔ q ≠ p ∧ Owns v q k b := by
    intro q k b
    simp only [Owns, hmem, and_assoc]
    exact and_congr_right fun hq => by rw [hinode q hq]
  refine ⟨fun b hb => ?_, fun q k b hown => ?_, fun q r k l b hq hr => ?_, fun q hq k hk => ?_,
    fun q hq => ?_, hlist ▸ h.nodup.erase _, fun n hn => ?_, fun q hq => ?_, fun q hq r hr heq => ?_,
    fun q hq hne => ?_⟩
  · simp only [hzone b hb, Others, howns]
  · exact h.data q k b ((howns q k b).mp hown).2
  · exact h.once q r k l b ((howns q k b).mp hq).2 ((howns r l b).mp hr).2
  · obtain ⟨hqp, hq⟩ := (hmem q).mp hq
    rw [hinode q hqp] at hk ⊢
    exact h.high q hq k hk
  · obtain ⟨hqp, hq⟩ := (hmem q).mp hq
    rw [hinode q hqp]
    exact h.size q hq
  · rw [himap n hn, h.imap n hn]
    constructor
    · rintro ⟨hne, rfl | ⟨q, hq, rfl⟩⟩
      · exact .inl rfl
      · have hqp : q ≠ p := fun heq => hne (by rw [heq])
        exact .inr ⟨q, (hmem q).mpr ⟨hqp, hq⟩, by rw [hinode q hqp]⟩
    · rintro (rfl | ⟨q, hq, rfl⟩)
      · have hpos := (h.inum p hp).1
        exact ⟨by omega, .inl rfl⟩
      · obtain ⟨hqp, hq⟩ := (hmem q).mp hq
        rw [hinode q hqp]
        exact ⟨fun heq => hqp (h.inums q hq p hp heq), .inr ⟨q, hq, rfl⟩⟩
  · obtain ⟨hqp, hq⟩ := (hmem q).mp hq
    rw [hinode q hqp]
    exact h.inum q hq
  · obtain ⟨hqp, hq⟩ := (hmem q).mp hq
    obtain ⟨hrp, hr⟩ := (hmem r).mp hr
    rw [hinode q hqp, hinode r hrp] at heq
    exact h.inums q hq r hr heq
  · obtain ⟨hqp, hq⟩ := (hmem q).mp hq
    rw [hinode q hqp] at hne
    exact h.root q hq hne

/-- A new inode without zones joins under a free number. -/
theorem Inv.join (h : Inv v) {p : InodePtr} {n mode : Nat} (hp : p ∉ v.inodeList)
    (hlist : v'.inodeList = p :: v.inodeList)
    (hinode : v'.inode = Function.update v.inode p (newInode n mode))
    (hzone : ∀ b < sectorBits, ZoneBit v'.disk b ↔ ZoneBit v.disk b) (hn : n < sectorBits)
    (hpos : n ≠ 0) (hfree : ¬InodeBit v.disk n)
    (himap : ∀ k < sectorBits, InodeBit v'.disk k ↔ k = n ∨ InodeBit v.disk k) : Inv v' := by
  have hself : v'.inode p = newInode n mode := by rw [hinode, Function.update_self]
  have hother : ∀ q ∈ v.inodeList, v'.inode q = v.inode q := fun q hq => by
    rw [hinode, Function.update_of_ne (ne_of_mem_of_not_mem hq hp)]
  have hmem : ∀ q, q ∈ v'.inodeList ↔ q = p ∨ q ∈ v.inodeList := by
    intro q
    rw [hlist, List.mem_cons]
  have hnone : nzone (newInode n mode) = 0 := by
    rw [nzone, newInode, zonesOf_eq le_rfl (by decide)]
    rfl
  have howns : ∀ q k b, Owns v' q k b ↔ Owns v q k b := by
    intro q k b
    simp only [Owns, hmem]
    by_cases hq : q ∈ v.inodeList
    · simp [hq, hother q hq]
    · by_cases hqp : q = p
      · subst hqp
        simp only [hself, hnone, hq, or_false, true_and, false_and, iff_false, not_and]
        omega
      · simp [hq, hqp]
  have hnum : ∀ q ∈ v.inodeList, (v.inode q).iInum ≠ n := fun q hq heq =>
    hfree ((h.imap n hn).mpr (.inr ⟨q, hq, heq⟩))
  refine ⟨fun b hb => ?_, fun q k b hown => ?_, fun q r k l b hq hr => ?_, fun q hq k hk => ?_,
    fun q hq => ?_, hlist ▸ List.nodup_cons.mpr ⟨hp, h.nodup⟩, fun k hk => ?_, fun q hq => ?_,
    fun q hq r hr heq => ?_, fun q hq hne => ?_⟩
  · simp only [hzone b hb, h.zmap b hb, howns]
  · exact h.data q k b ((howns q k b).mp hown)
  · exact h.once q r k l b ((howns q k b).mp hq) ((howns r l b).mp hr)
  · rcases (hmem q).mp hq with rfl | hq
    · rw [hself]
      rfl
    · rw [hother q hq] at hk ⊢
      exact h.high q hq k hk
  · rcases (hmem q).mp hq with rfl | hq
    · have hmax : (0 : Int) ≤ maxSize := by decide
      rw [hself]
      exact ⟨le_rfl, hmax⟩
    · rw [hother q hq]
      exact h.size q hq
  · rw [himap k hk, h.imap k hk]
    constructor
    · rintro (rfl | rfl | ⟨q, hq, rfl⟩)
      · exact .inr ⟨p, (hmem p).mpr (.inl rfl), by rw [hself]; rfl⟩
      · exact .inl rfl
      · exact .inr ⟨q, (hmem q).mpr (.inr hq), by rw [hother q hq]⟩
    · rintro (rfl | ⟨q, hq, rfl⟩)
      · exact .inr (.inl rfl)
      · rcases (hmem q).mp hq with rfl | hq
        · exact .inl (by rw [hself]; rfl)
        · exact .inr (.inr ⟨q, hq, by rw [hother q hq]⟩)
  · rcases (hmem q).mp hq with rfl | hq
    · rw [hself]
      exact ⟨Nat.one_le_iff_ne_zero.mpr hpos, hn⟩
    · rw [hother q hq]
      exact h.inum q hq
  · rcases (hmem q).mp hq with rfl | hq <;> rcases (hmem r).mp hr with rfl | hr
    · rfl
    · rw [hself, hother r hr] at heq
      exact absurd heq.symm (hnum r hr)
    · rw [hself, hother q hq] at heq
      exact absurd heq (hnum q hq)
    · rw [hother q hq, hother r hr] at heq
      exact h.inums q hq r hr heq
  · rcases (hmem q).mp hq with rfl | hq
    · rw [hself] at hne
      exact absurd rfl hne
    · rw [hother q hq] at hne
      exact h.root q hq hne

/-! ## Steps -/

theorem others_meta (v : Volume) (p : InodePtr) : ∀ b < super.sDataStart, Others v p b :=
  fun _ hb => .inl hb

/-- The metadata blocks below the inode table other than the zone bitmap keep their content
through every operation on zones. -/
theorem Inv.imap_kept (h : Inv v) {disk : Disk} (hkept : Kept v.disk disk) {n : Nat}
    (hn : n < sectorBits) : InodeBit disk n ↔ InodeBit v.disk n :=
  inodeBit_congr (hkept 2 (by decide) (by decide) ((h.zmap 2 (by decide)).mpr (.inl (by decide)))) hn

theorem Inv.create (h : Inv v) {mode addr : Nat} {ptrs : Pointers} {p : InodePtr}
    (hcall : createInode v mode addr ptrs = .ok (p, v')) : Inv v' := by
  obtain ⟨rfl, hfresh, n, disk, halloc, hne, hrec, hinode, hlist⟩ := createInode_ok hcall
  obtain ⟨hn, hfree, -, himap, hother⟩ := allocInodeNr_ok halloc
  refine h.join hfresh hlist hinode (fun b hb => ?_) hn hne hfree fun k hk => ?_
  · refine zoneBit_congr ?_ hb
    rw [writeInode_below hrec (by decide), hother 3 (by decide)]
  · rw [inodeBit_congr (writeInode_below hrec (by decide)) hk]
    exact himap k

theorem Inv.write (h : Inv v) {p : InodePtr} (hp : p ∈ v.inodeList) {pos count ret : Int}
    {buf : Nat → UInt8} {ptrs : Pointers} {disk : Disk} {inode : Inode}
    (hcall : Zone.write v.disk (v.inode p) pos buf count ptrs = .ok (ret, disk, inode)) :
    Inv { v.setInode p inode with disk := disk } := by
  obtain ⟨h0, hs⟩ := h.size p hp
  obtain ⟨hfits, ⟨hsize, hpos, hend⟩, hsame, hframe⟩ :=
    write_ok (others_meta v p) h0 hs (h.fits hp) hcall
  refine h.replace hp hfits ⟨?_, ?_⟩ hsame.iInum hsame.iNlink fun n hn => ?_
  · rw [hsize]
    exact le_max_of_le_left h0
  · rw [hsize]
    exact max_le hs hend
  · refine inodeBit_congr (hframe 2 (by decide) (by decide)
      ((h.zmap 2 (by decide)).mpr (.inl (by decide)))
      (hfits.zone_ne (others_meta v p) (by decide) (by decide)) ?_) hn
    have hle : super.sItableStart ≤ inodeBlk (v.inode p).iInum := Nat.le_add_left _ _
    simp only [super] at hle
    omega

theorem zonesOf_nat {n : Nat} (hn : (n : Int) ≤ maxSize) :
    zonesOf n = ((n + 1023) / 1024 : Nat) := by
  rw [zonesOf_eq (by omega) hn]
  push_cast
  rfl

theorem Inv.truncate (h : Inv v) {p : InodePtr} (hp : p ∈ v.inodeList) {length : Nat} {disk : Disk}
    {inode : Inode}
    (hcall : reserveZone v.disk (v.inode p) ((length + 1023) / 1024 : Nat) true =
      .ok (disk, inode)) :
    Inv { v.setInode p { inode with iSize := length } with disk := disk } := by
  obtain ⟨hfits, hkept, hsame⟩ := reserveZone_ok (others_meta v p) (h.fits hp) hcall
  rw [if_pos rfl] at hfits
  have hmax : (length : Int) ≤ maxSize := by
    have hle := hfits.le
    simp only [maxSize]
    omega
  refine h.replace hp ?_ ⟨by simp, hmax⟩ hsame.iInum hsame.iNlink fun n hn => h.imap_kept hkept hn
  rw [nzone, zonesOf_nat hmax]
  exact hfits.of_block3 rfl rfl

theorem Inv.put (h : Inv v) {p : InodePtr} (hp : p ∈ v.inodeList) {ptrs : Pointers}
    (hcall : putInode v p ptrs = .ok v') : Inv v' := by
  obtain ⟨-, ⟨-, rfl⟩ | ⟨-, hroot, hlist, hinode, hdel⟩⟩ := putInode_ok hcall
  · exact @Inv.replace _ h _ hp v.disk _ ((h.fits hp).of_block3 rfl rfl) (h.size p hp) rfl rfl
      fun _ _ => Iff.rfl
  obtain ⟨-, hdel⟩ | ⟨hlink, -⟩ := hdel
  · simp only [deleteInode, bind_eq_ok, pure_eq_ok, Except.ok.injEq, Prod.mk.injEq] at hdel
    obtain ⟨⟨disk₁, inode₁⟩, hres, disk₂, hfree, rfl, -⟩ := hdel
    have hfits₀ : Fits (Others v p) v.disk { v.inode p with iRefcnt := 0 }
        (zonesOf (v.inode p).iSize) := (h.fits hp).of_block3 rfl rfl
    obtain ⟨hfits, hkept, hsame⟩ := reserveZone_ok (others_meta v p) hfits₀ hres
    rw [if_pos rfl] at hfits
    obtain ⟨hn, himap, hother⟩ := freeInodeNr_ok hfree
    rw [hsame.iInum] at himap
    refine h.remove hp hlist hinode (fun b hb => ?_) fun n hn => ?_
    · rw [zoneBit_congr (hother 3 (by decide)) hb, hfits.bits b hb]
      simp only [or_iff_left_iff_imp, forall_exists_index, and_imp]
      intro k hk
      omega
    · rw [himap n, h.imap_kept hkept hn]
  · exact absurd (h.root p hp hlink) hroot

theorem Inv.sync (h : Inv v) {p : InodePtr} (hp : p ∈ v.inodeList) {ptrs : Pointers} {disk : Disk}
    (hcall : writeInode v.disk (v.inode p) ptrs = .ok disk) : Inv { v with disk := disk } := by
  have hfits := (h.fits hp).of_block3 (writeInode_below hcall (b := 3) (by decide)) rfl
  have hinv := h.replace hp hfits (h.size p hp) rfl rfl fun n hn =>
    inodeBit_congr (writeInode_below hcall (by decide)) hn
  have hset : v.setInode p (v.inode p) = v := by
    simp only [Volume.setInode, Function.update_eq_self]
  rwa [hset] at hinv

theorem Inv.step (h : Inv v) {a : Call} (st : Step v a v') : Inv v' := by
  cases a with
  | create mode addr ptrs =>
    simp only [Step, call, bind_eq_ok, pure_eq_ok, Except.ok.injEq] at st
    obtain ⟨⟨p, v₁⟩, hcall, rfl⟩ := st
    exact h.create hcall
  | write p pos buf count ptrs =>
    simp only [Step, call, bind_eq_ok, access_eq_ok, pure_eq_ok, Except.ok.injEq] at st
    obtain ⟨_, hp, ⟨ret, disk, inode⟩, hcall, rfl⟩ := st
    exact h.write hp hcall
  | truncate p length =>
    simp only [Step, call, bind_eq_ok, access_eq_ok, pure_eq_ok, Except.ok.injEq] at st
    obtain ⟨_, hp, ⟨disk, inode⟩, hcall, rfl⟩ := st
    exact h.truncate hp hcall
  | put p ptrs =>
    simp only [Step, call, bind_eq_ok, access_eq_ok] at st
    obtain ⟨_, hp, hcall⟩ := st
    exact h.put hp hcall
  | sync p ptrs =>
    simp only [Step, call, bind_eq_ok, access_eq_ok, pure_eq_ok, Except.ok.injEq] at st
    obtain ⟨_, hp, disk, hcall, rfl⟩ := st
    exact h.sync hp hcall

theorem Inv.mkfs {memory : InodePtr → Inode} {disk : Disk} {ptrs : Pointers}
    (h : mkfsVolume memory disk ptrs = .ok v) : Inv v := by
  obtain ⟨hlist, hroot, himap, hzmap⟩ := mkfsVolume_ok h
  have hmem : ∀ p, p ∈ v.inodeList → p = .root := fun p hp => by simpa [hlist] using hp
  have hnone : nzone mkfsRoot = 0 := by
    rw [nzone, mkfsRoot, zonesOf_eq le_rfl (by decide)]
    rfl
  have howns : ∀ p k b, ¬Owns v p k b := by
    rintro p k b ⟨hp, hk, -⟩
    rw [hmem p hp, hroot, hnone] at hk
    omega
  refine ⟨fun b hb => ?_, fun p k b hown => absurd hown (howns p k b),
    fun p q k l b hown => absurd hown (howns p k b), fun p hp k hk => ?_, fun p hp => ?_,
    hlist ▸ List.nodup_singleton _, fun n hn => ?_, fun p hp => ?_, fun p hp q hq _ => ?_,
    fun p hp _ => hmem p hp⟩
  · simp only [hzmap b hb, howns, exists_false, or_false]
  · rw [hmem p hp, hroot]
    rfl
  · rw [hmem p hp, hroot]
    exact ⟨by decide, by decide⟩
  · rw [himap n hn]
    simp only [hlist, List.mem_singleton, exists_eq_left, hroot, mkfsRoot]
    omega
  · rw [hmem p hp, hroot]
    exact ⟨by decide, by decide⟩
  · rw [hmem p hp, hmem q hq]

theorem Inv.reach {memory : InodePtr → Inode} {disk : Disk} {ptrs : Pointers} {v₀ : Volume}
    (h₀ : mkfsVolume memory disk ptrs = .ok v₀) (h : Reach Step v₀ v) : Inv v :=
  h.inv (fun _ _ _ hinv st => hinv.step st) (.mkfs h₀)

/-- In every state reached from mkfs a bit of the zone bitmap is set exactly when the block
is in the metadata area or is one zone of one existing inode, an inode's zones are non-zero
up to its size and 0 behind, and the existing inodes are those of the inode bitmap. -/
theorem zones_accounted {memory : InodePtr → Inode} {disk : Disk} {ptrs : Pointers} {v₀ : Volume}
    (h₀ : mkfsVolume memory disk ptrs = .ok v₀) (h : Reach Step v₀ v) :
    (∀ b < sectorBits, ZoneBit v.disk b ↔ b < super.sDataStart ∨
      ∃! zone : InodePtr × Fin 9, zone.1 ∈ v.inodeList ∧ (v.inode zone.1).iZone zone.2 = b) ∧
    (∀ p ∈ v.inodeList, ∀ k : Fin 9,
      if (k : Int) < ((v.inode p).iSize + 1023) / 1024 then
        super.sDataStart ≤ (v.inode p).iZone k ∧ (v.inode p).iZone k < sectorBits
      else (v.inode p).iZone k = 0) ∧
    ∀ n < sectorBits, n ≠ 0 →
      (InodeBit v.disk n ↔ ∃! p, p ∈ v.inodeList ∧ (v.inode p).iInum = n) := by
  have hinv := Inv.reach h₀ h
  have hown : ∀ p ∈ v.inodeList, ∀ k : Fin 9, super.sDataStart ≤ (v.inode p).iZone k →
      Owns v p k ((v.inode p).iZone k) := by
    intro p hp k hk
    refine ⟨hp, ?_, rfl⟩
    by_contra hhigh
    rw [hinv.high p hp k (not_lt.mp hhigh)] at hk
    simp [super] at hk
  refine ⟨fun b hb => ?_, fun p hp k => ?_, fun n hn hne => ?_⟩
  · rw [hinv.zmap b hb]
    constructor
    · rintro (hlt | ⟨p, k, hpk⟩)
      · exact .inl hlt
      · refine .inr ⟨(p, k), ⟨hpk.1, hpk.2.2⟩, ?_⟩
        rintro ⟨q, l⟩ ⟨hq, hl⟩
        have hql := hown q hq l (by rw [hl]; exact (hinv.data p k b hpk).1)
        simp only at hl
        rw [hl] at hql
        obtain ⟨rfl, rfl⟩ := hinv.once q p l k b hql hpk
        rfl
    · rintro (hlt | ⟨⟨p, k⟩, ⟨hp, hk⟩, -⟩)
      · exact .inl hlt
      · by_cases hmeta : b < super.sDataStart
        · exact .inl hmeta
        · simp only at hk
          exact .inr ⟨p, k, hk ▸ hown p hp k (hk ▸ not_lt.mp hmeta)⟩
  · obtain ⟨h0, hs⟩ := hinv.size p hp
    rw [← zonesOf_eq h0 hs]
    split_ifs with hk
    · exact hinv.data p k _ ⟨hp, hk, rfl⟩
    · exact hinv.high p hp k (not_lt.mp hk)
  · rw [hinv.imap n hn]
    constructor
    · rintro (hzero | ⟨p, hp, hnum⟩)
      · exact absurd hzero hne
      · exact ⟨p, ⟨hp, hnum⟩, fun q hq => hinv.inums q hq.1 p hp (hq.2.trans hnum.symm)⟩
    · rintro ⟨p, hp, -⟩
      exact .inr ⟨p, hp⟩

/-- A blank disk on which a file is created, written, cut, grown again and left. -/
def sampleCalls : List Call :=
  [.create 123 100 fun _ => 0, .write (.obj 100) 0 (fun _ => 7) 1000 fun _ => 0,
    .truncate (.obj 100) 3, .create 123 200 fun _ => 0,
    .write (.obj 200) 0 (fun _ => 9) 10 fun _ => 0, .write (.obj 100) 1000 (fun _ => 8) 500 fun _ => 0,
    .put (.obj 200) fun _ => 0]

theorem zones_accounted_sample : ∃ v₀ v, mkfsVolume (fun _ => mkfsRoot) (fun _ => zeroBlock)
    (fun _ => 0) = .ok v₀ ∧ Reach Step v₀ v ∧ v.inodeList = [.obj 100, .root] ∧
      super.sDataStart ≤ (v.inode (.obj 100)).iZone 1 := by
  have hrun : (match mkfsVolume (fun _ => mkfsRoot) (fun _ => zeroBlock) (fun _ => 0) with
      | .ok v₀ => match sampleCalls.foldlM call v₀ with
        | .ok v => decide (v.inodeList = [.obj 100, .root] ∧ (v.inode (.obj 100)).iSize = 1500)
        | .error _ => false
      | .error _ => false) = true := by
    decide +kernel
  split at hrun
  · rename_i v₀ h₀
    split at hrun
    · rename_i v hv
      obtain ⟨hlist, hsize⟩ := of_decide_eq_true hrun
      have hreach : Reach Step v₀ v := reach_of_foldlM (fun _ _ _ hcall => hcall) hv
      have hzone := (zones_accounted h₀ hreach).2.1 (.obj 100) (by simp [hlist]) 1
      rw [if_pos (by rw [hsize]; decide)] at hzone
      exact ⟨v₀, v, h₀, hreach, hlist, hzone.1⟩
    · exact absurd hrun (by simp)
  · exact absurd hrun (by simp)

end RxdOs.Fs.ZoneAccounting
