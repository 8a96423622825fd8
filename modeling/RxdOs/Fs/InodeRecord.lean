/- RxdOs/Fs/InodeRecord
   source: fs/fs.c (read_inode, write_inode)
   digest: The inode table as a map from numbers to inodes: what write_inode stores reads back,
   and the other records stay. -/

import Mathlib.Tactic
import Mathlib.Order.CompletePartialOrder
import RxdOs.Fs.Layout

set_option autoImplicit false
set_option relaxedAutoImplicit false

namespace RxdOs.Fs.InodeRecord

open RxdOs.Base.Assert RxdOs.Base.Int32 RxdOs.Fs.Bitmap RxdOs.Fs.Layout

/-- What the record of `n` says; i_refcnt is not read from it. -/
def stored (disk : Disk) (n : Nat) : Inode := decode (disk (inodeBlk n)) (inodeOff n) 0

/-- The inode as its record says it. -/
def onDisk (inode : Inode) : Inode := { inode with iRefcnt := 0 }

/-- Numbers that the fields of a `struct inode` hold. -/
structure InRange (inode : Inode) : Prop where
  iInum : inode.iInum < 256 ^ 4
  iSize : -(256 : Int) ^ 4 ≤ 2 * inode.iSize ∧ 2 * inode.iSize < (256 : Int) ^ 4
  iMode : inode.iMode < 256 ^ 2
  iNlink : -(256 : Int) ^ 2 ≤ 2 * inode.iNlink ∧ 2 * inode.iNlink < (256 : Int) ^ 2
  iZone : ∀ k, inode.iZone k < 256 ^ 4

/-- The bytes of the slot of `n`, as block and offset. -/
def slot (n : Nat) : Set (Nat × Nat) :=
  {p | p.1 = inodeBlk n ∧ inodeOff n ≤ p.2 ∧ p.2 < inodeOff n + sizeofInode}

/-- A number that write_inode and read_inode accept. -/
structure Recorded (disk : Disk) (n : Nat) : Prop where
  ne_zero : n ≠ 0
  lt : n < sectorBits
  bit : InodeBit disk n

/-- One write_inode after the other. -/
def writeAll (disk : Disk) (ws : List (Inode × Pointers)) : Kernel Disk :=
  ws.foldlM (fun disk w => writeInode disk w.1 w.2) disk

variable {disk disk' : Disk} {inode : Inode} {ptrs : Pointers}

theorem signedAt_range (mem : Nat → UInt8) (off : Nat) {n : Nat} (hn : n ≠ 0) :
    -(256 : Int) ^ n ≤ 2 * signedAt mem off n ∧ 2 * signedAt mem off n < (256 : Int) ^ n := by
  have hpos : 0 < 256 ^ n := Nat.pow_pos (by decide)
  have heven : (256 ^ n : Nat) % 2 = 0 := by
    obtain ⟨k, rfl⟩ := Nat.exists_eq_succ_of_ne_zero hn
    rw [pow_succ]
    omega
  have hlo := @Int.le_bmod (wordAt mem off n) (256 ^ n) hpos
  have hhi := @Int.bmod_lt (wordAt mem off n) (256 ^ n) hpos
  have hcast : ((256 ^ n : Nat) : Int) = (256 : Int) ^ n := by push_cast; rfl
  rw [signedAt]
  omega

theorem decode_inRange (block : Block) (off : Nat) (iRefcnt : Int) :
    InRange (decode block off iRefcnt) := by
  refine ⟨wordAt_lt .., ?_, wordAt_lt .., ?_, fun _ => wordAt_lt ..⟩
  · simp only [decode]
    exact signedAt_range _ _ four_ne_zero
  · simp only [decode]
    exact signedAt_range _ _ two_ne_zero

/-! ## One record -/

theorem byteAt_record {block : Block} {off i : Nat} (hoff : off + sizeofInode ≤ 1024)
    (hi : i < sizeofInode) :
    byteAt (store block off sizeofInode (record inode ptrs)) (off + i) = record inode ptrs i := by
  have hin : off ≤ off + i ∧ off + i < off + sizeofInode := ⟨by omega, by omega⟩
  have hlt : off + i < 1024 := by omega
  rw [byteAt, dif_pos hlt, store, if_pos hin, Nat.add_sub_cancel_left]

/-- A record reads back as the inode it was made of. -/
theorem decode_record (h : InRange inode) (block : Block) {off : Nat}
    (hoff : off + sizeofInode ≤ 1024) (iRefcnt : Int) :
    decode (store block off sizeofInode (record inode ptrs)) off iRefcnt =
      { inode with iRefcnt := iRefcnt } := by
  have hbyte : ∀ i, i < 72 → byteAt (store block off sizeofInode (record inode ptrs)) (off + i) =
      record inode ptrs i := fun i hi => byteAt_record hoff hi
  have hinum : wordAt (byteAt (store block off sizeofInode (record inode ptrs))) off 4 =
      inode.iInum := by
    refine wordAt_byteOf_nat le_rfl h.iInum fun i hi => ?_
    rw [hbyte i (by omega), record, if_pos hi]
  have hsize : signedAt (byteAt (store block off sizeofInode (record inode ptrs))) (off + 4) 4 =
      inode.iSize := by
    refine signedAt_byteOf le_rfl h.iSize.1 h.iSize.2 fun i hi => ?_
    rw [Nat.add_assoc, hbyte (4 + i) (by omega), record, if_neg (by omega), if_pos (by omega),
      Nat.add_sub_cancel_left]
  have hmode : wordAt (byteAt (store block off sizeofInode (record inode ptrs))) (off + 8) 2 =
      inode.iMode := by
    refine wordAt_byteOf_nat (by decide) h.iMode fun i hi => ?_
    rw [Nat.add_assoc, hbyte (8 + i) (by omega), record, if_neg (by omega), if_neg (by omega),
      if_pos (by omega), Nat.add_sub_cancel_left]
  have hlink : signedAt (byteAt (store block off sizeofInode (record inode ptrs))) (off + 10) 2 =
      inode.iNlink := by
    refine signedAt_byteOf (by decide) h.iNlink.1 h.iNlink.2 fun i hi => ?_
    rw [Nat.add_assoc, hbyte (10 + i) (by omega), record, if_neg (by omega), if_neg (by omega),
      if_neg (by omega), if_pos (by omega), Nat.add_sub_cancel_left]
  have hzone : ∀ k : Fin 9, wordAt (byteAt (store block off sizeofInode (record inode ptrs)))
      (off + 12 + 4 * k) 4 = inode.iZone k := by
    intro k
    refine wordAt_byteOf_nat le_rfl (h.iZone k) fun i hi => ?_
    have hk := k.isLt
    have hpos : off + 12 + 4 * k.val + i = off + (12 + 4 * k.val + i) := by omega
    have hdiv : (12 + 4 * k.val + i - 12) / 4 = k.val := by omega
    have hmod : (12 + 4 * k.val + i) % 4 = i := by omega
    have hin : 12 + 4 * k.val + i < 48 := by omega
    rw [hpos, hbyte _ (by omega), record, if_neg (by omega), if_neg (by omega), if_neg (by omega),
      if_neg (by omega), dif_pos hin, hmod]
    simp only [hdiv]
  rw [decode, hinum, hsize, hmode, hlink]
  simp only [hzone]

/-- A record only depends on its own bytes. -/
theorem decode_congr {block block' : Block} {off : Nat}
    (h : ∀ i < sizeofInode, byteAt block' (off + i) = byteAt block (off + i)) (iRefcnt : Int) :
    decode block' off iRefcnt = decode block off iRefcnt := by
  have hword : ∀ a n, a + n ≤ 72 →
      wordAt (byteAt block') (off + a) n = wordAt (byteAt block) (off + a) n := fun a n ha =>
    wordAt_congr fun i hi => by rw [Nat.add_assoc, h (a + i) (by simp only [sizeofInode]; omega)]
  have hsigned : ∀ a n, a + n ≤ 72 →
      signedAt (byteAt block') (off + a) n = signedAt (byteAt block) (off + a) n := fun a n ha => by
    rw [signedAt, signedAt, hword a n ha]
  have hzone : ∀ k : Fin 9, wordAt (byteAt block') (off + 12 + 4 * k) 4 =
      wordAt (byteAt block) (off + 12 + 4 * k) 4 := fun k => by
    have hk := k.isLt
    rw [Nat.add_assoc, hword _ 4 (by omega)]
  have hinum := hword 0 4 (by decide)
  rw [Nat.add_zero] at hinum
  simp only [decode, hinum, hsigned 4 4 (by decide), hword 8 2 (by decide),
    hsigned 10 2 (by decide), hzone]

/-! ## The table -/

theorem inodeOff_le (n : Nat) : inodeOff n + sizeofInode ≤ 1024 := by
  have hper : inodePerBlk = 14 := rfl
  simp only [inodeOff, sizeofInode, hper]
  omega

theorem stored_inRange (disk : Disk) (n : Nat) : InRange (stored disk n) := decode_inRange _ _ _

theorem stored_congr {n : Nat} (h : disk' (inodeBlk n) = disk (inodeBlk n)) :
    stored disk' n = stored disk n := by
  rw [stored, stored, h]

/-- What write_inode has written. -/
theorem stored_writeInode (h : writeInode disk inode ptrs = .ok disk') (hrange : InRange inode) :
    stored disk' inode.iInum = onDisk inode := by
  obtain ⟨-, -, -, rfl⟩ := writeInode_ok h
  rw [stored, Function.update_self]
  exact decode_record hrange _ (inodeOff_le _) 0

/-- The records of other numbers lie beside it. -/
theorem stored_writeInode_of_ne (h : writeInode disk inode ptrs = .ok disk') {n : Nat}
    (hn : n ≠ inode.iInum) : stored disk' n = stored disk n := by
  obtain ⟨-, -, -, rfl⟩ := writeInode_ok h
  by_cases hblk : inodeBlk n = inodeBlk inode.iInum
  · rw [stored, stored, hblk, Function.update_self]
    refine decode_congr (fun i hi => ?_) 0
    have hper : inodePerBlk = 14 := rfl
    have hoff := inodeOff_le n
    have hlt : inodeOff n + i < 1024 := by omega
    have hout : ¬(inodeOff inode.iInum ≤ inodeOff n + i ∧
        inodeOff n + i < inodeOff inode.iInum + sizeofInode) := by
      simp only [inodeBlk, inodeOff, sizeofInode, hper] at hblk hi ⊢
      omega
    rw [byteAt, dif_pos hlt, byteAt, dif_pos hlt, store, if_neg hout]
  · exact stored_congr (Function.update_of_ne hblk ..)

theorem mem_slot_lt {n : Nat} {p : Nat × Nat} (hp : p ∈ slot n) : p.2 < 1024 :=
  hp.2.2.trans_le (inodeOff_le n)

/-- The slots of two numbers do not meet: 14 of them fill a block up to its last 16 bytes. -/
theorem slot_disjoint {i j : Nat} (hij : i ≠ j) : Disjoint (slot i) (slot j) := by
  rw [Set.disjoint_left]
  rintro ⟨b, x⟩ hi hj
  have hper : inodePerBlk = 14 := rfl
  simp only [slot, Set.mem_ofPred_eq, inodeBlk, inodeOff, sizeofInode, hper] at hi hj
  omega

/-- write_inode changes the slot of its number only. -/
theorem writeInode_frame (h : writeInode disk inode ptrs = .ok disk') {b : Nat} {x : Fin 1024}
    (hout : (b, x.val) ∉ slot inode.iInum) : disk' b x = disk b x := by
  obtain ⟨-, -, -, rfl⟩ := writeInode_ok h
  by_cases hb : b = inodeBlk inode.iInum
  · subst hb
    rw [Function.update_self, store, if_neg fun hin => hout ⟨rfl, hin⟩]
  · rw [Function.update_of_ne hb]

theorem Recorded.write {n : Nat} (hn : Recorded disk n)
    (h : writeInode disk inode ptrs = .ok disk') : Recorded disk' n :=
  ⟨hn.ne_zero, hn.lt, (inodeBit_congr (writeInode_below h (by decide)) hn.lt).mpr hn.bit⟩

/-- read_inode gives the fields of the record, and keeps i_refcnt. -/
theorem Recorded.read {n : Nat} (hn : Recorded disk n) (hnum : (stored disk n).iInum = n)
    (object : Inode) : readInode disk object n =
      .ok { stored disk n with iRefcnt := object.iRefcnt } := by
  rw [readInode_of_bit hn.ne_zero hn.lt hn.bit hnum, stored, decode, decode]

/-- Writes for other numbers leave a record readable as it was. -/
theorem Recorded.writeAll {n : Nat} (hn : Recorded disk n) {ws : List (Inode × Pointers)}
    (hws : ∀ w ∈ ws, w.1.iInum ≠ n ∧ Recorded disk w.1.iInum) :
    ∃ disk', writeAll disk ws = .ok disk' ∧ stored disk' n = stored disk n ∧ Recorded disk' n := by
  induction ws generalizing disk with
  | nil => exact ⟨disk, rfl, rfl, hn⟩
  | cons w ws ih =>
    obtain ⟨hne, hw⟩ := hws w (List.mem_cons_self ..)
    obtain ⟨disk₁, hwrite⟩ := writeInode_of_bit w.2 hw.ne_zero hw.lt hw.bit
    obtain ⟨disk₂, hall, hstored, hrec⟩ := ih (hn.write hwrite) fun v hv =>
      ⟨(hws v (List.mem_cons_of_mem _ hv)).1, (hws v (List.mem_cons_of_mem _ hv)).2.write hwrite⟩
    refine ⟨disk₂, ?_, hstored.trans (stored_writeInode_of_ne hwrite hne.symm), hrec⟩
    rw [InodeRecord.writeAll, List.foldlM_cons, hwrite]
    exact hall

/-- Inode record codec.  The slots are disjoint and inside their blocks; write_inode changes its
slot only; and after any writes for other numbers read_inode gives the inode back. -/
theorem inode_record_codec (hrange : InRange inode) (hinode : Recorded disk inode.iInum)
    {ws : List (Inode × Pointers)}
    (hws : ∀ w ∈ ws, w.1.iInum ≠ inode.iInum ∧ Recorded disk w.1.iInum) :
    (∀ i j, i ≠ j → Disjoint (slot i) (slot j)) ∧ (∀ i, ∀ p ∈ slot i, p.2 < 1024) ∧
    ∃ disk₁ disk₂, writeInode disk inode ptrs = .ok disk₁ ∧
      (∀ b (x : Fin 1024), (b, x.val) ∉ slot inode.iInum → disk₁ b x = disk b x) ∧
      writeAll disk₁ ws = .ok disk₂ ∧
      ∀ object, readInode disk₂ object inode.iInum =
        .ok { inode with iRefcnt := object.iRefcnt } := by
  refine ⟨fun i j hij => slot_disjoint hij, fun i p hp => mem_slot_lt hp, ?_⟩
  obtain ⟨disk₁, hwrite⟩ := writeInode_of_bit ptrs hinode.ne_zero hinode.lt hinode.bit
  obtain ⟨disk₂, hall, hstored, hrec⟩ := (hinode.write hwrite).writeAll fun w hw =>
    ⟨(hws w hw).1, (hws w hw).2.write hwrite⟩
  have hsame : stored disk₂ inode.iInum = onDisk inode :=
    hstored.trans (stored_writeInode hwrite hrange)
  refine ⟨disk₁, disk₂, hwrite, fun b x hout => writeInode_frame hwrite hout, hall, fun object => ?_⟩
  rw [hrec.read (by rw [hsame]; rfl) object, hsame]
  rfl

/-- The root inode, with another inode written after it. -/
theorem inode_record_codec_root : ∃ disk₁ disk₂,
    writeInode (fun _ _ => 255) mkfsRoot (fun _ => 0) = .ok disk₁ ∧
      writeAll disk₁ [({ mkfsRoot with iInum := 2, iSize := 5 }, fun _ => 7)] = .ok disk₂ ∧
      readInode disk₂ mkfsRoot 1 = .ok mkfsRoot := by
  have hroot : InRange mkfsRoot :=
    ⟨by decide, by decide, by decide, by decide, fun _ => by simp [mkfsRoot]⟩
  have hset : ∀ n, n ≠ 0 → n < sectorBits → Recorded (fun _ _ => 255) n := by
    intro n hne hlt
    refine ⟨hne, hlt, byte_ff_bits (i := n % sectorBits / 8) ?_ rfl⟩
    have hbyte : n % sectorBits / 8 < 1024 := by
      simp only [sectorBits]
      omega
    rw [byteAt, dif_pos hbyte]
  obtain ⟨-, -, disk₁, disk₂, hwrite, -, hall, hread⟩ := @inode_record_codec _ mkfsRoot (fun _ => 0)
    hroot (hset 1 (by decide) (by decide)) [({ mkfsRoot with iInum := 2, iSize := 5 }, fun _ => 7)]
    (by simpa [mkfsRoot] using hset 2 (by decide) (by decide))
  exact ⟨disk₁, disk₂, hwrite, hall, hread mkfsRoot⟩

end RxdOs.Fs.InodeRecord
