/- RxdOs/Fs/UnwrittenBytes
   source: fs/fs.c (_write, _reserve_zone, sys_truncate)
   digest: Bytes of a file that nobody has written read as zero over all runs of writes and
   truncations that leave no old bytes behind the new end. -/

import RxdOs.Lib.Execution
import RxdOs.Fs.FileBytes
import RxdOs.Fs.Open

set_option autoImplicit false
set_option relaxedAutoImplicit false

namespace RxdOs.Fs.UnwrittenBytes

open RxdOs.Base.Assert RxdOs.Base.Int32 RxdOs.Lib.Execution RxdOs.Fs.Bitmap RxdOs.Fs.Layout
  RxdOs.Fs.Zone RxdOs.Fs.ZoneMap RxdOs.Fs.InodeCache RxdOs.Fs.Name RxdOs.Fs.DentryCache
  RxdOs.Fs.Open RxdOs.Fs.FileBytes

/-- What sys_truncate does to the inode it finds. -/
def truncate (disk : Disk) (inode : Inode) (length : Int) : Kernel (Disk × Inode) :=
  if length < inode.iSize then do
    let (disk, inode) ← reserveZone disk inode (zonesOf length) true
    pure (disk, { inode with iSize := length })
  else pure (disk, inode)

/-- A file, with the positions written since it was created or last cut off before them. -/
structure FileState where
  disk : Disk
  inode : Inode
  written : Set Nat

inductive Act
  | write (pos count : Nat) (buf : Nat → UInt8) (ptrs : Pointers)
  | truncate (length : Nat)

/-- A _write inside one block, at any offset, or the truncation to any length. -/
inductive Step : FileState → Act → FileState → Prop
  | write {s : FileState} {pos count : Nat} {buf : Nat → UInt8} {ptrs : Pointers} {ret : Int}
      {disk : Disk} {inode : Inode} : pos % 1024 + count ≤ 1024 →
      Zone.write s.disk s.inode pos buf count ptrs = .ok (ret, disk, inode) →
      Step s (.write pos count buf ptrs) ⟨disk, inode, s.written ∪ {x | pos ≤ x ∧ x < pos + count}⟩
  | truncate {s : FileState} {length : Nat} {disk : Disk} {inode : Inode} :
      (length : Int) < s.inode.iSize →
      UnwrittenBytes.truncate s.disk s.inode length = .ok (disk, inode) →
      Step s (.truncate length) ⟨disk, inode, s.written ∩ {x | x < length}⟩

/-- Every position below i_size that has not been written reads as 0. -/
def UnwrittenZero (s : FileState) : Prop := ∀ x : Nat, (x : Int) < s.inode.iSize →
  x ∉ s.written → fileByte s.disk s.inode x = 0

/-- A truncation cuts off only zeros inside the last block that it keeps. -/
def CutsZeros (s : FileState) : Act → Prop
  | .truncate length => ∀ x, length ≤ x → (x : Int) < 1024 * zonesOf length →
      fileByte s.disk s.inode x = 0
  | .write .. => True

/-- A file as create_inode leaves it; `base` are the blocks in use elsewhere. -/
structure Created (base : Nat → Prop) (s : FileState) : Prop where
  metadata : ∀ b < super.sDataStart, base b
  record : base (inodeBlk s.inode.iInum)
  size : s.inode.iSize = 0
  fits : Fits base s.disk s.inode 0

/-- Every byte of every zone that has not been written is 0, past the end of the file too. -/
structure Inv (base : Nat → Prop) (s : FileState) : Prop where
  metadata : ∀ b < super.sDataStart, base b
  record : base (inodeBlk s.inode.iInum)
  size : 0 ≤ s.inode.iSize ∧ s.inode.iSize ≤ maxSize
  fits : Fits base s.disk s.inode (zonesOf s.inode.iSize)
  zero : ∀ x : Nat, (x : Int) < 1024 * zonesOf s.inode.iSize → x ∉ s.written →
    fileByte s.disk s.inode x = 0

/-! ## sys_truncate -/

theorem sysTruncate_eq {s s₁ : FsState} {path : Pathname} {d : DentryPtr} {p : InodePtr}
    {pathname : CStr} {length : Int} {env : Env} (hpath : kernelString pathname = .ok path)
    (hopen : openPath s path env = .ok (some d, s₁)) (hp : (s₁.dentry d).dInode = some p) :
    sysTruncate s pathname length env = (do
      let (disk, inode) ← truncate s₁.vol.disk (s₁.vol.inode p) length
      pure (0, { s₁ with vol := { s₁.vol.setInode p inode with disk := disk } })) := by
  have hderef : deref (s₁.dentry d).dInode "inode->i_size" = .ok p := deref_eq_ok.mpr hp
  rw [sysTruncate, hpath, ok_bind, hopen, ok_bind]
  simp only [hderef, ok_bind, truncate]
  split_ifs with hlt
  · cases reserveZone s₁.vol.disk (s₁.vol.inode p) (zonesOf length) true with
    | error e => rfl
    | ok r => rfl
  · have hsame : s₁.vol.setInode p (s₁.vol.inode p) = s₁.vol := by
      simp only [Volume.setInode, Function.update_eq_self]
    rw [pure_eq_ok, pure_eq_ok, ok_bind, hsame]
    rfl

/-! ## Truncating -/

section Truncate

variable {base : Nat → Prop} {disk disk' : Disk} {inode inode' : Inode}

/-- The truncating loop keeps the zones below its end. -/
theorem shrink_zones {n : Nat} {cur : Int} (h : shrink n cur disk inode = .ok (disk', inode')) :
    ∀ k : Fin 9, (k : Int) < cur - n → inode'.iZone k = inode.iZone k := by
  induction n generalizing cur disk inode with
  | zero =>
    simp only [shrink, pure_eq_ok, Except.ok.injEq, Prod.mk.injEq] at h
    obtain ⟨-, rfl⟩ := h
    exact fun _ _ => rfl
  | succ n ih =>
    simp only [shrink, bind_eq_ok] at h
    obtain ⟨b, -, inode₁, hset, disk₁, -, h⟩ := h
    obtain ⟨h0, h6, rfl⟩ := setZoneBlk_ok hset
    intro k hk
    push_cast at hk
    have hne : k ≠ Fin.ofNat 9 (cur - 1).toNat := fun heq => by
      have := (eq_ofNat_iff h0 h6 k).mp heq
      omega
    rw [ih h k (by omega)]
    exact Function.update_of_ne hne ..

/-- _reserve_zone that may truncate, to fewer zones. -/
theorem reserveZone_cut {nzone : Int} (h : Fits base disk inode (zonesOf inode.iSize))
    (hle : nzone ≤ zonesOf inode.iSize)
    (hres : reserveZone disk inode nzone true = .ok (disk', inode')) :
    (∀ k : Fin 9, (k : Int) < nzone → inode'.iZone k = inode.iZone k) ∧
      ∀ b, b ≠ 3 → disk' b = disk b := by
  simp only [reserveZone, bind_eq_ok, assert_eq_ok] at hres
  obtain ⟨_, -, hres⟩ := hres
  rw [if_neg (not_lt.mpr hle)] at hres
  split_ifs at hres with hgt
  · have hzones := shrink_zones hres
    rw [Int.toNat_of_nonneg (by omega), sub_sub_cancel] at hzones
    exact ⟨hzones, (shrink_ok h hres).2.1⟩
  · simp only [pure_eq_ok, Except.ok.injEq, Prod.mk.injEq] at hres
    obtain ⟨rfl, rfl⟩ := hres
    exact ⟨fun _ _ => rfl, fun _ _ => rfl⟩

/-- A truncation keeps the zones it needs with all that they hold. -/
theorem truncate_ok (hbase : ∀ b < super.sDataStart, base b) {length : Nat}
    (hs : inode.iSize ≤ maxSize) (h : Fits base disk inode (zonesOf inode.iSize))
    (hlt : (length : Int) < inode.iSize)
    (htrunc : truncate disk inode length = .ok (disk', inode')) :
    inode'.iSize = length ∧ inode'.iInum = inode.iInum ∧
      Fits base disk' inode' (zonesOf length) ∧
      ∀ x : Nat, (x : Int) < 1024 * zonesOf length →
        fileByte disk' inode' x = fileByte disk inode x := by
  rw [truncate, if_pos hlt] at htrunc
  simp only [bind_eq_ok, pure_eq_ok, Except.ok.injEq, Prod.mk.injEq] at htrunc
  obtain ⟨⟨disk₁, inode₁⟩, hres, rfl, rfl⟩ := htrunc
  obtain ⟨hfits, -, hsame⟩ := reserveZone_ok hbase h hres
  rw [if_pos rfl] at hfits
  refine ⟨rfl, hsame.iInum, hfits.of_block3 rfl rfl, fun x hx => fileByte_congr ?_⟩
  have hmono : zonesOf length ≤ zonesOf inode.iSize := by
    rw [zonesOf_eq (by omega) (by omega), zonesOf_eq (by omega) hs]
    omega
  obtain ⟨hzones, hblocks⟩ := reserveZone_cut h hmono hres
  have hle := hfits.le
  have hk : ((Fin.ofNat 9 (x / 1024) : Fin 9) : Nat) = x / 1024 := zone_val (by
    simp only [maxSize]
    omega)
  have hzone := hzones (Fin.ofNat 9 (x / 1024)) (by omega)
  show disk₁ (inode₁.iZone _) = disk (inode.iZone _)
  rw [hzone]
  refine hblocks _ fun heq => ?_
  exact (h.fresh _ (by omega)).1 (heq ▸ hbase 3 (by decide))

end Truncate

/-! ## Runs -/

section Runs

variable {base : Nat → Prop} {s s' : FileState}

theorem Inv.unwrittenZero (h : Inv base s) : UnwrittenZero s := by
  intro x hx hnot
  refine h.zero x ?_ hnot
  rw [zonesOf_eq h.size.1 h.size.2]
  omega

theorem Inv.step (h : Inv base s) {a : Act} (hcuts : CutsZeros s a) (st : Step s a s') :
    Inv base s' := by
  cases st with
  | @write pos count buf ptrs ret disk inode hblock hwrite =>
    obtain ⟨hfits, ⟨hsize, hpos, hend⟩, hsame, -⟩ :=
      write_ok h.metadata h.size.1 h.size.2 h.fits hwrite
    have hsize' : 0 ≤ inode.iSize ∧ inode.iSize ≤ maxSize := by
      rw [hsize]
      exact ⟨le_max_of_le_left h.size.1, max_le h.size.2 hend⟩
    refine ⟨h.metadata, ?_, hsize', hfits, fun x hx hnot => ?_⟩
    · show base (inodeBlk inode.iInum)
      rw [show inode.iInum = s.inode.iInum from hsame.iInum]
      exact h.record
    · have hbyte := write_bytes h.metadata h.size.1 h.size.2 h.fits h.record hblock hwrite hx
      have hout : ¬(pos ≤ x ∧ x < pos + count) := fun hin => hnot (.inr hin)
      rw [if_neg hout] at hbyte
      rw [hbyte]
      split_ifs with hold
      · exact h.zero x hold fun hin => hnot (.inl hin)
      · rfl
  | @truncate length disk inode hlt htrunc =>
    obtain ⟨hsize, hinum, hfits, hbytes⟩ := truncate_ok h.metadata h.size.2 h.fits hlt htrunc
    have hmax := h.size.2
    have hmono : zonesOf length ≤ zonesOf s.inode.iSize := by
      rw [zonesOf_eq (by omega) (by omega), zonesOf_eq (by omega) hmax]
      omega
    refine ⟨h.metadata, ?_, ⟨?_, ?_⟩, ?_, fun x hx hnot => ?_⟩
    · show base (inodeBlk inode.iInum)
      rw [hinum]
      exact h.record
    · show 0 ≤ inode.iSize
      omega
    · show inode.iSize ≤ maxSize
      omega
    · show Fits base disk inode (zonesOf inode.iSize)
      rw [hsize]
      exact hfits
    · change (x : Int) < 1024 * zonesOf inode.iSize at hx
      rw [hsize] at hx
      show fileByte disk inode x = 0
      rw [hbytes x hx]
      by_cases hin : x < length
      · exact h.zero x (by omega) fun hwritten => hnot ⟨hwritten, hin⟩
      · exact hcuts x (not_lt.mp hin) hx

theorem Created.inv (h : Created base s) : Inv base s := by
  have hnone : zonesOf s.inode.iSize = 0 := by
    rw [h.size, zonesOf_eq le_rfl (by decide)]
    rfl
  refine ⟨h.metadata, h.record, ?_, hnone ▸ h.fits, fun x hx => ?_⟩
  · rw [h.size]
    decide
  · rw [hnone] at hx
    omega

end Runs

/-- Along every run of writes and truncations of a created file in which each truncation leaves
only zeros behind the new end, unwritten positions read as 0. -/
theorem unwritten_bytes_zero {base : Nat → Prop} {s : FileState} (hcreated : Created base s)
    {tr : List (Act × FileState)} (hrun : Exec Step s tr) (hcuts : Guarded CutsZeros s tr) :
    Always UnwrittenZero s tr :=
  (hrun.always_of_guarded (fun _ _ _ h hc st => Inv.step h hc st) hcreated.inv hcuts).imp
    fun _ h => h.unwrittenZero

/-! ## The first file of a fresh file system -/

theorem created_first {memory : InodePtr → Inode} {disk : Disk} {ptrs ptrs' : Pointers}
    {v v' : Volume} {mode addr : Nat} {p : InodePtr} (hmkfs : mkfsVolume memory disk ptrs = .ok v)
    (hcreate : createInode v mode addr ptrs' = .ok (p, v')) :
    Created (· < super.sDataStart) ⟨v'.disk, v'.inode p, ∅⟩ := by
  obtain ⟨-, -, himap, hzmap⟩ := mkfsVolume_ok hmkfs
  obtain ⟨-, -, n, disk₁, halloc, -, hrec, hinode, -⟩ := createInode_ok hcreate
  obtain ⟨hn, hfree, hbelow, -, hother⟩ := allocInodeNr_ok halloc
  have hfirst : n = 2 := by
    have hge : ¬n < 2 := fun hlt => hfree ((himap n hn).mpr hlt)
    by_contra hne
    exact absurd ((himap 2 (by decide)).mp (hbelow 2 (by omega))) (by decide)
  have hnew : v'.inode p = newInode 2 mode := by rw [hinode, Function.update_self, hfirst]
  refine ⟨fun _ hb => hb, ?_, ?_, le_rfl, by decide, fun k hk => ?_, fun k _ => ?_, fun k l hk => ?_,
    fun b hb => ?_⟩
  · show inodeBlk (v'.inode p).iInum < super.sDataStart
    rw [hnew]
    show inodeBlk 2 < super.sDataStart
    decide
  · show (v'.inode p).iSize = 0
    rw [hnew]
    rfl
  · omega
  · show (v'.inode p).iZone k = 0
    rw [hnew]
    rfl
  · omega
  · have h3 : v'.disk 3 = v.disk 3 := by
      rw [writeInode_below hrec (by decide), hother 3 (by decide)]
    show ZoneBit v'.disk b ↔ _
    rw [zoneBit_congr h3 hb, hzmap b hb]
    constructor
    · exact .inl
    · rintro (hlt | ⟨k, hk, -⟩)
      · exact hlt
      · omega

/-- What four bytes, a truncation to `length`, and one byte at position 10 leave. -/
structure Rewritten where
  first : FileState
  full : FileState
  cut : FileState
  grown : FileState

def letters : Nat → UInt8 := fun _ => 65

def noPtrs : Pointers := fun _ => 0

def rewrite (length : Nat) : Kernel Rewritten := do
  let v ← mkfsVolume (fun _ => mkfsRoot) (fun _ => zeroBlock) noPtrs
  let (p, v) ← createInode v 123 0 noPtrs
  let first : FileState := ⟨v.disk, v.inode p, ∅⟩
  let (_, disk, inode) ← Zone.write first.disk first.inode 0 letters 4 noPtrs
  let full : FileState := ⟨disk, inode, first.written ∪ {x | 0 ≤ x ∧ x < 0 + 4}⟩
  access ((length : Int) < inode.iSize) "length < inode->i_size"
  let (disk, inode) ← truncate disk inode length
  let cut : FileState := ⟨disk, inode, full.written ∩ {x | x < length}⟩
  let (_, disk, inode) ← Zone.write disk inode 10 letters 1 noPtrs
  pure ⟨first, full, cut, ⟨disk, inode, cut.written ∪ {x | 10 ≤ x ∧ x < 10 + 1}⟩⟩

def Rewritten.run (r : Rewritten) (length : Nat) : List (Act × FileState) :=
  [(.write 0 4 letters noPtrs, r.full), (.truncate length, r.cut),
    (.write 10 1 letters noPtrs, r.grown)]

theorem rewrite_run {length : Nat} {r : Rewritten} (h : rewrite length = .ok r) :
    Created (· < super.sDataStart) r.first ∧ Exec Step r.first (r.run length) ∧
      r.grown.written = ({x | 0 ≤ x ∧ x < 0 + 4} ∩ {x | x < length}) ∪ {x | 10 ≤ x ∧ x < 10 + 1} := by
  simp only [rewrite, bind_eq_ok, access_eq_ok, pure_eq_ok, Except.ok.injEq] at h
  obtain ⟨v, hmkfs, ⟨p, v'⟩, hcreate, ⟨ret, disk, inode⟩, hwrite, _, hlt, ⟨disk₁, inode₁⟩, htrunc,
    ⟨ret₂, disk₂, inode₂⟩, hwrite₂, rfl⟩ := h
  refine ⟨created_first hmkfs hcreate, .cons (.write ?_ hwrite) (.cons (.truncate hlt htrunc)
    (.cons (.write ?_ hwrite₂) (.nil _))), ?_⟩
  · decide
  · decide
  · show (((∅ ∪ _) ∩ _) ∪ _ : Set Nat) = _
    rw [Set.empty_union]

theorem unwritten_bytes_zero_whole : ∃ r : Rewritten, Always UnwrittenZero r.first (r.run 0) := by
  have hrun : (match rewrite 0 with
      | .ok _ => true
      | .error _ => false) = true := by decide +kernel
  split at hrun
  swap
  · cases hrun
  rename_i r hr
  obtain ⟨hcreated, hexec, -⟩ := rewrite_run hr
  refine ⟨r, unwritten_bytes_zero hcreated hexec ⟨trivial, fun x _ hx => ?_, trivial, trivial⟩⟩
  have hnone : zonesOf ((0 : Nat) : Int) = 0 := by decide
  rw [hnone] at hx
  omega

/-- Cut off at 2 and extended again, the file shows at position 2 what it held before. -/
theorem old_byte_shows : ∃ r : Rewritten, Created (· < super.sDataStart) r.first ∧
    Exec Step r.first (r.run 2) ∧ ¬Always UnwrittenZero r.first (r.run 2) := by
  have hrun : (match rewrite 2 with
      | .ok r => decide (r.grown.inode.iSize = 11 ∧ fileByte r.grown.disk r.grown.inode 2 = 65)
      | .error _ => false) = true := by decide +kernel
  split at hrun
  swap
  · cases hrun
  rename_i r hr
  obtain ⟨hsize, hbyte⟩ := of_decide_eq_true hrun
  obtain ⟨hcreated, hexec, hwritten⟩ := rewrite_run hr
  refine ⟨r, hcreated, hexec, fun h => ?_⟩
  have hlast : UnwrittenZero r.grown := h.last
  have hnot : (2 : Nat) ∉ r.grown.written := by
    rw [hwritten]
    simp
  have hzero := hlast 2 (by rw [hsize]; decide) hnot
  rw [hbyte] at hzero
  exact absurd hzero (by decide)

end RxdOs.Fs.UnwrittenBytes
