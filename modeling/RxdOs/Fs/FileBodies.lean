/- RxdOs/Fs/FileBodies
   source: fs/fs.c (_write, create_inode, put_inode, _add_dir_entry, create_dentry, get_dentry)
   digest: The files of the root directory as sequences of bytes on the disk, and what the
   operations on inodes and dentries leave of them. -/

import RxdOs.Lib.NamedFiles
import RxdOs.Fs.NamedCache

set_option autoImplicit false
set_option relaxedAutoImplicit false

namespace RxdOs.Fs.FileBodies

open RxdOs.Base.Assert RxdOs.Base.Int32 RxdOs.Lib.NamedFiles RxdOs.Fs.Bitmap RxdOs.Fs.Layout RxdOs.Fs.Zone
  RxdOs.Fs.ZoneMap RxdOs.Fs.FileBytes RxdOs.Fs.FileRead RxdOs.Fs.FileWrite RxdOs.Fs.InodeCache
  RxdOs.Fs.InodeRecord RxdOs.Fs.InodeRegion RxdOs.Fs.InodeTable RxdOs.Fs.Name RxdOs.Fs.Dir
  RxdOs.Fs.Directory RxdOs.Fs.DentryCache RxdOs.Fs.Open RxdOs.Fs.CacheReach
  RxdOs.Fs.PathResolution RxdOs.Fs.RootDirectory RxdOs.Fs.WriteThrough RxdOs.Fs.NamedCache

open RxdOs.Fs.Message (Found withPage_eq_ok)

/-! ## Files on the disk -/

/-- The name of a file in the root directory. -/
abbrev FileName := { c : CStr // Component c }

/-- The entries of the root directory, as they stand on the disk. -/
def entriesOn (disk : Disk) : List DirEntry :=
  (List.range ((stored disk 1).iSize / 32).toNat).map (entryAt ⟨disk, stored disk 1⟩)

def numbersOn (disk : Disk) : List Nat := (entriesOn disk).map DirEntry.inode

/-- The inode number of a name. -/
def numberOf (disk : Disk) (c : FileName) : Option Nat :=
  ((entriesOn disk).find? fun e => decide (e.name = padded c.1)).map DirEntry.inode

/-- The bytes up to the size. -/
def bytesOf (disk : Disk) (inode : Inode) : List UInt8 :=
  (List.range inode.iSize.toNat).map (fileByte disk inode)

/-- The bytes of the file of that number, if the root directory has one. -/
def bodyOn (disk : Disk) (n : Nat) : List UInt8 :=
  if n ∈ numbersOn disk then bytesOf disk (stored disk n) else []

/-- The last block is zero past the size. -/
def Trimmed (disk : Disk) (inode : Inode) : Prop := ∀ x : Nat, inode.iSize ≤ x →
  (x : Int) < 1024 * zonesOf inode.iSize → fileByte disk inode x = 0

/-- So it is in every file of the root directory. -/
def AllTrimmed (disk : Disk) : Prop := ∀ n ∈ numbersOn disk, Trimmed disk (stored disk n)

variable {v v' : Volume} {es es' : List Record} {disk disk' disk₁ : Disk} {inode inode' : Inode}
  {n : Nat} {p : InodePtr} {ptrs : Pointers}

/-! ## The entries as records -/

section Entries

theorem entriesOn_eq (hv : Through v) (h : Named v es) :
    entriesOn v.disk = es.map Record.entry := by
  have hsame := hv.same .root hv.root.1
  rw [hv.root.2] at hsame
  have hsize : (stored v.disk 1).iSize = 32 * es.length := by
    rw [hsame]
    exact h.listing.size
  have hcount : ((stored v.disk 1).iSize / 32).toNat = es.length := by omega
  rw [entriesOn, hcount]
  refine List.ext_getElem (by simp) fun i hi _ => ?_
  simp only [List.length_map, List.length_range] at hi
  rw [List.getElem_map, List.getElem_map, List.getElem_range, ← h.listing.entryAt hi, hsame]
  rfl

theorem numbersOn_eq (hv : Through v) (h : Named v es) :
    numbersOn v.disk = es.map Record.inode := by
  rw [numbersOn, entriesOn_eq hv h, List.map_map]
  rfl

theorem padded_eq_iff {r : Record} {c : FileName} : r.entry.name = padded c.1 ↔ r.name = c.1 := by
  show padded r.name = padded c.1 ↔ _
  refine ⟨fun heq => ?_, fun heq => by rw [heq]⟩
  refine eq_of_charAt r.noNul c.2.isName.noNul fun i _ => ?_
  rw [← charAt_padded, heq, charAt_padded]

theorem numberOf_eq (hv : Through v) (h : Named v es) (c : FileName) :
    numberOf v.disk c = mapOf es c.1 := by
  rw [numberOf, entriesOn_eq hv h, mapOf, List.find?_map, Option.map_map]
  congr 1
  refine congrArg (fun f => List.find? f es) (funext fun r => ?_)
  exact decide_eq_decide.mpr padded_eq_iff

end Entries

/-! ## What an operation leaves alone -/

section Frames

variable {keep keep' : Nat → Prop}

/-- The super block, and the inodes that are kept with their records and their blocks. -/
structure Spared (disk disk' : Disk) (keep : Nat → Prop) : Prop where
  super : disk' 1 = disk 1
  used : ∀ n, keep n → Used disk n → Used disk' n
  record : ∀ n, keep n → Used disk n → stored disk' n = stored disk n
  block : ∀ n k b, keep n → Owns disk n k b → disk' b = disk b

theorem Spared.refl (disk : Disk) (keep : Nat → Prop) : Spared disk disk keep :=
  ⟨rfl, fun _ _ h => h, fun _ _ _ => rfl, fun _ _ _ _ _ => rfl⟩

theorem Spared.mono (h : Spared disk disk' keep) (himp : ∀ n, keep' n → keep n) :
    Spared disk disk' keep' :=
  ⟨h.super, fun n hn => h.used n (himp n hn), fun n hn => h.record n (himp n hn),
    fun n k b hn => h.block n k b (himp n hn)⟩

theorem Spared.owns (h : Spared disk disk' keep) {k : Fin 9} {b : Nat} (hn : keep n)
    (hb : Owns disk n k b) : Owns disk' n k b := by
  obtain ⟨hused, hk, hzone⟩ := hb
  have hrecord := h.record n hn hused
  exact ⟨h.used n hn hused, by rwa [hrecord], by rwa [hrecord]⟩

theorem Spared.trans (h : Spared disk disk₁ keep) (h' : Spared disk₁ disk' keep) :
    Spared disk disk' keep := by
  refine ⟨h'.super.trans h.super, fun n hn hused => h'.used n hn (h.used n hn hused),
    fun n hn hused => ?_, fun n k b hn hb => ?_⟩
  · rw [h'.record n hn (h.used n hn hused), h.record n hn hused]
  · rw [h'.block n k b hn (h.owns hn hb), h.block n k b hn hb]

/-- The bytes of a file that is kept, up to the end of its last block. -/
theorem Spared.sameByte (h : Spared disk disk' keep) (htable : Table disk) (hn : keep n)
    (hused : Used disk n) {x : Nat} (hx : (x : Int) < 1024 * zonesOf (stored disk n).iSize) :
    fileByte disk' (stored disk' n) x = fileByte disk (stored disk n) x := by
  have hown := htable.owned n hused
  have h7 : zonesOf (stored disk n).iSize ≤ 7 := by
    have hle := hown.le
    rw [zonesOf_eq hown.nonneg hown.le]
    simp only [maxSize] at hle
    omega
  have hval := zone_index hx h7
  rw [h.record n hn hused]
  refine fileByte_congr (h.block n (Fin.ofNat 9 (x / 1024)) _ hn ⟨hused, ?_, rfl⟩)
  omega

theorem lt_zones (hown : Owned disk inode) {x : Nat} (hx : x < inode.iSize.toNat) :
    (x : Int) < 1024 * zonesOf inode.iSize := by
  rw [zonesOf_eq hown.nonneg hown.le]
  omega

theorem Spared.sameBytes (h : Spared disk disk' keep) (htable : Table disk) (hn : keep n)
    (hused : Used disk n) : bytesOf disk' (stored disk' n) = bytesOf disk (stored disk n) := by
  rw [bytesOf, bytesOf, h.record n hn hused]
  refine List.map_congr_left fun x hx => ?_
  have hbyte := h.sameByte htable hn hused (lt_zones (htable.owned n hused) (List.mem_range.mp hx))
  rwa [h.record n hn hused] at hbyte

theorem Spared.trimmed (h : Spared disk disk' keep) (htable : Table disk) (hn : keep n)
    (hused : Used disk n) (htrim : Trimmed disk (stored disk n)) :
    Trimmed disk' (stored disk' n) := by
  intro x hle hlt
  rw [h.record n hn hused] at hle hlt
  rw [h.sameByte htable hn hused hlt]
  exact htrim x hle hlt

/-- The files of the entries. -/
def filesOf (es : List Record) (n : Nat) : Prop := ∃ r ∈ es, r.inode = n

theorem mem_numbersOn (hv : Through v) (h : Named v es) : n ∈ numbersOn v.disk ↔ filesOf es n := by
  rw [numbersOn_eq hv h, List.mem_map]
  rfl

theorem linked_used (h : Entries v es) (hn : filesOf es n) : Used v.disk n := by
  obtain ⟨r, hr, rfl⟩ := hn
  exact (h.linked r hr).2.1

/-- Nothing is seen of an operation that keeps the entries and their files. -/
theorem Spared.unseen (hsp : Spared v.disk v'.disk (filesOf es)) (hv : Through v)
    (h : Entries v es) (hv' : Through v') (h' : Entries v' es) :
    numberOf v'.disk = numberOf v.disk ∧ bodyOn v'.disk = bodyOn v.disk ∧
      (AllTrimmed v.disk → AllTrimmed v'.disk) := by
  refine ⟨funext fun c => ?_, funext fun n => ?_, fun htrim n hn => ?_⟩
  · rw [numberOf_eq hv h.toNamed, numberOf_eq hv' h'.toNamed]
  · by_cases hn : filesOf es n
    · rw [bodyOn, bodyOn, if_pos ((mem_numbersOn hv h.toNamed).mpr hn),
        if_pos ((mem_numbersOn hv' h'.toNamed).mpr hn)]
      exact hsp.sameBytes hv.table hn (linked_used h hn)
    · rw [bodyOn, bodyOn, if_neg (mt (mem_numbersOn hv h.toNamed).mp hn),
        if_neg (mt (mem_numbersOn hv' h'.toNamed).mp hn)]
  · have hfile := (mem_numbersOn hv' h'.toNamed).mp hn
    refine hsp.trimmed hv.table hfile (linked_used h hfile) (htrim n ?_)
    exact (mem_numbersOn hv h.toNamed).mpr hfile

/-- An entry is added, with an empty file of its own. -/
theorem Spared.created {r : Record} (hsp : Spared v.disk v'.disk (filesOf es)) (hv : Through v)
    (h : Entries v es) (hv' : Through v') (h' : Entries v' (es ++ [r])) {c : FileName}
    (hc : r.name = c.1) (hname : ∀ q ∈ es, q.name ≠ r.name)
    (hsize : (stored v'.disk r.inode).iSize = 0) :
    numberOf v'.disk = Function.update (numberOf v.disk) c (some r.inode) ∧
      bodyOn v'.disk = Function.update (bodyOn v.disk) r.inode [] ∧
      (AllTrimmed v.disk → AllTrimmed v'.disk) := by
  have hmem : ∀ n, filesOf (es ++ [r]) n ↔ filesOf es n ∨ n = r.inode := by
    intro n
    simp [filesOf, eq_comm]
  refine ⟨funext fun c' => ?_, funext fun n => ?_, fun htrim n hn => ?_⟩
  · rw [numberOf_eq hv' h'.toNamed, mapOf_append hname]
    by_cases hcc : c' = c
    · rw [hcc, Function.update_self, hc, Function.update_self]
    · have hne : c'.1 ≠ r.name := fun heq => hcc (Subtype.ext (heq.trans hc))
      rw [Function.update_of_ne hcc, Function.update_of_ne hne, numberOf_eq hv h.toNamed]
  · by_cases hnr : n = r.inode
    · have hbytes : bytesOf v'.disk (stored v'.disk r.inode) = [] := by
        rw [bytesOf, hsize]
        rfl
      rw [hnr, Function.update_self, bodyOn, hbytes, ite_self]
    rw [Function.update_of_ne hnr]
    by_cases hn : filesOf es n
    · have hn' : n ∈ numbersOn v'.disk :=
        (mem_numbersOn hv' h'.toNamed).mpr ((hmem n).mpr (.inl hn))
      rw [bodyOn, bodyOn, if_pos ((mem_numbersOn hv h.toNamed).mpr hn), if_pos hn']
      exact hsp.sameBytes hv.table hn (linked_used h hn)
    · have hn' : n ∉ numbersOn v'.disk := by
        rw [mem_numbersOn hv' h'.toNamed, hmem]
        exact fun hor => hor.elim hn hnr
      rw [bodyOn, bodyOn, if_neg (mt (mem_numbersOn hv h.toNamed).mp hn), if_neg hn']
  · obtain hfile | rfl := (hmem n).mp ((mem_numbersOn hv' h'.toNamed).mp hn)
    · refine hsp.trimmed hv.table hfile (linked_used h hfile) (htrim n ?_)
      exact (mem_numbersOn hv h.toNamed).mpr hfile
    · intro x _ hlt
      have hzero : zonesOf (stored v'.disk r.inode).iSize = 0 := by
        rw [hsize]
        rfl
      omega

/-- One file gets other bytes. -/
theorem Spared.rewritten (hsp : Spared v.disk v'.disk (· ≠ n)) (hv : Through v)
    (h : Entries v es) (hv' : Through v') (h' : Entries v' es) (hn : filesOf es n)
    (htrim : Trimmed v'.disk (stored v'.disk n)) :
    numberOf v'.disk = numberOf v.disk ∧
      bodyOn v'.disk = Function.update (bodyOn v.disk) n (bytesOf v'.disk (stored v'.disk n)) ∧
      (AllTrimmed v.disk → AllTrimmed v'.disk) := by
  refine ⟨funext fun c => ?_, funext fun m => ?_, fun hall m hm => ?_⟩
  · rw [numberOf_eq hv h.toNamed, numberOf_eq hv' h'.toNamed]
  · by_cases hmn : m = n
    · rw [hmn, Function.update_self, bodyOn, if_pos ((mem_numbersOn hv' h'.toNamed).mpr hn)]
    rw [Function.update_of_ne hmn]
    by_cases hm : filesOf es m
    · rw [bodyOn, bodyOn, if_pos ((mem_numbersOn hv h.toNamed).mpr hm),
        if_pos ((mem_numbersOn hv' h'.toNamed).mpr hm)]
      exact hsp.sameBytes hv.table hmn (linked_used h hm)
    · rw [bodyOn, bodyOn, if_neg (mt (mem_numbersOn hv h.toNamed).mp hm),
        if_neg (mt (mem_numbersOn hv' h'.toNamed).mp hm)]
  · have hfile := (mem_numbersOn hv' h'.toNamed).mp hm
    by_cases hmn : m = n
    · exact hmn ▸ htrim
    · refine hsp.trimmed hv.table hmn (linked_used h hfile) (hall m ?_)
      exact (mem_numbersOn hv h.toNamed).mpr hfile

end Frames

/-! ## Operations on inodes -/

section Inodes

theorem Beside.spares (h : Beside disk disk' n) (hsuper : disk' 1 = disk 1) :
    Spared disk disk' (· ≠ n) :=
  ⟨hsuper, fun m _ hm => (used_congr h.map m).mpr hm, fun m hm hused => h.records m hused hm,
    fun m k b hm hb => h.blocks m k b hm hb⟩

/-- A returning _write keeps the super block. -/
theorem Table.write_super (h : Table disk) (hn : Used disk inode.iInum)
    (hsame : stored disk inode.iInum = onDisk inode) {pos count ret : Int} {buf : Nat → UInt8}
    (hwrite : Zone.write disk inode pos buf count ptrs = .ok (ret, disk', inode')) :
    disk' 1 = disk 1 := by
  obtain ⟨hown, -, hfits, -⟩ := h.ready hn hsame
  have hmeta := Owned.others_meta h.reserved hown
  obtain ⟨hfits', -, -, hframe⟩ := write_ok hmeta hown.nonneg hown.le hfits hwrite
  have hblk := inodeBlk_ge inode.iInum
  exact hframe 1 (by decide) (by decide) (h.reserved 1 (by decide))
    (hfits'.zone_ne hmeta (by decide) (by decide)) (by omega)

theorem Table.write_spares (h : Table disk) (hn : Used disk inode.iInum)
    (hsame : stored disk inode.iInum = onDisk inode) {pos count ret : Int} {buf : Nat → UInt8}
    (hwrite : Zone.write disk inode pos buf count ptrs = .ok (ret, disk', inode')) :
    Spared disk disk' (· ≠ inode.iInum) := by
  obtain ⟨hbeside, -⟩ := h.write hn hsame hwrite
  exact Beside.spares hbeside (Table.write_super h hn hsame hwrite)

/-- write_inode keeps every other inode, and this one where its record comes out the same. -/
theorem Table.record_spares (h : Table disk) (hn : Used disk inode.iInum)
    (hrec : writeInode disk inode ptrs = .ok disk') :
    Spared disk disk' fun m => m = inode.iInum → stored disk' m = stored disk m := by
  have hbeside := h.record hn hrec
  refine ⟨writeInode_below hrec (by decide), fun m _ hm => (used_congr hbeside.map m).mpr hm,
    fun m hm hused => ?_, fun m k b _ hb => ?_⟩
  · by_cases hmn : m = inode.iInum
    · exact hm hmn
    · exact hbeside.records m hused hmn
  · obtain ⟨hm, hk, rfl⟩ := hb
    obtain ⟨-, hdata, -⟩ := (h.owned m hm).taken k hk
    have hblk := inodeBlk_lt (h.inside _ hn)
    exact writeInode_of_ne hrec (by omega)

/-- create_inode keeps every inode there was. -/
theorem Through.createInode_spares (h : Through v) {mode addr : Nat}
    (hcreate : InodeCache.createInode v mode addr ptrs = .ok (p, v'))
    (hfree : ∃ m < tableSize, ¬InodeBit v.disk m) (hmode : mode < 256 ^ 2) :
    Spared v.disk v'.disk fun _ => True := by
  obtain ⟨m, hnew, -, -, hused, hrecords, hblocks, -⟩ := h.createInode hcreate hfree hmode
  obtain ⟨-, -, n, disk, halloc, -, hrec, -, -⟩ := createInode_ok hcreate
  obtain ⟨-, -, -, -, hother⟩ := allocInodeNr_ok halloc
  refine ⟨?_, fun k _ hk => (hused k).mpr (.inr hk), fun k _ hk => ?_, fun k l b _ hb => ?_⟩
  · rw [writeInode_below hrec (by decide), hother 1 (by decide)]
  · exact hrecords k fun heq => hnew (heq ▸ hk)
  · obtain ⟨hk, hl, rfl⟩ := hb
    exact hblocks _ ((h.table.owned k hk).taken l hl).2.1

theorem deleteInode_super (h : Table disk) (hn : Used disk inode.iInum)
    (hsame : stored disk inode.iInum = onDisk inode)
    (hdel : deleteInode disk inode = .ok (disk', inode')) : disk' 1 = disk 1 := by
  simp only [deleteInode, bind_eq_ok, pure_eq_ok, Except.ok.injEq, Prod.mk.injEq] at hdel
  obtain ⟨⟨disk₁, inode₁⟩, hres, disk₂, hfree, rfl, -⟩ := hdel
  obtain ⟨hown, -, hfits, -⟩ := h.ready hn hsame
  obtain ⟨-, hkept, -⟩ := reserveZone_ok (Owned.others_meta h.reserved hown) hfits hres
  obtain ⟨-, -, hother⟩ := freeInodeNr_ok hfree
  rw [hother 1 (by decide)]
  exact hkept 1 (by decide) (by decide) (h.reserved 1 (by decide))

/-- put_inode keeps the files that entries name: an inode with links is only written back. -/
theorem Entries.putInode_spares (h : Entries v es) (hv : Through v) (hp : p ∈ v.inodeList)
    (hne : p ≠ .root) (hput : InodeCache.putInode v p ptrs = .ok v') :
    Spared v.disk v'.disk (filesOf es) := by
  obtain ⟨-, ⟨-, rfl⟩ | ⟨-, -, -, -, hend⟩⟩ := putInode_ok hput
  · exact .refl _ _
  have hsame := hv.same p hp
  have hused : Used v.disk ({ v.inode p with iRefcnt := 0 } : Inode).iInum := hv.used p hp
  obtain ⟨hlink, hdel⟩ | ⟨-, -, hrec⟩ := hend
  · have hnot : ∀ m, filesOf es m → m ≠ (v.inode p).iInum := by
      rintro m ⟨r, hr, rfl⟩ heq
      have hold := (h.linked r hr).2.2
      rw [heq, stored_nlink hv hp] at hold
      exact hold hlink
    obtain ⟨huse, hrecords, -⟩ := hv.table.delete hused hsame (root_number hv hp hne) hdel
    exact ⟨deleteInode_super hv.table hused hsame hdel,
      fun m hm hm' => (huse m).mpr ⟨hnot m hm, hm'⟩,
      fun m hm hm' => hrecords m hm' (hnot m hm),
      fun m k b _ hb => deleteInode_blocks hv.table hused hsame hdel hb⟩
  · have hrange : InRange { v.inode p with iRefcnt := 0 } := by
      have hstored := stored_inRange v.disk (v.inode p).iInum
      rw [hsame] at hstored
      exact hstored
    refine (Table.record_spares hv.table hused hrec).mono fun m _ heq => ?_
    rw [heq, stored_writeInode hrec hrange]
    exact hsame.symm

/-- _add_dir_entry to the root directory keeps every other inode. -/
theorem Through.addDirEntry_spares (hv : Through v) {target : DirEntry} {ret : Int}
    (hadd : addDirEntry v.disk (v.inode .root) target ptrs = .ok (ret, disk', inode')) :
    Spared v.disk disk' (· ≠ 1) := by
  simp only [addDirEntry, bind_eq_ok] at hadd
  obtain ⟨⟨found, de⟩, -, hadd⟩ := hadd
  split_ifs at hadd
  · simp only [pure_eq_ok, Except.ok.injEq, Prod.mk.injEq] at hadd
    obtain ⟨-, rfl, -⟩ := hadd
    exact .refl _ _
  simp only [bind_eq_ok, pure_eq_ok, Except.ok.injEq, Prod.mk.injEq] at hadd
  obtain ⟨pos, -, ⟨count, disk₁, dir₁⟩, hwrite, disk₂, hrec, -, rfl, -⟩ := hadd
  have hroot := hv.used .root hv.root.1
  have hsame := hv.same .root hv.root.1
  have hspared := Table.write_spares hv.table hroot hsame hwrite
  obtain ⟨hbeside, -, htable, hnum⟩ := hv.table.write hroot hsame hwrite
  rw [hv.root.2] at hspared hnum
  have hused : Used disk₁ ({ dir₁ with iNlink := wrapShort (dir₁.iNlink + 1) } : Inode).iInum := by
    show Used disk₁ dir₁.iInum
    rw [hnum]
    exact (used_congr hbeside.map 1).mpr hv.table.root
  refine hspared.trans ((Table.record_spares htable hused hrec).mono fun m hm heq => ?_)
  exact absurd (heq.trans hnum) hm

end Inodes

/-! ## Writing a file -/

section Writing

theorem length_bytesOf (disk : Disk) (inode : Inode) :
    (bytesOf disk inode).length = inode.iSize.toNat := by
  rw [bytesOf, List.length_map, List.length_range]

theorem getElem?_bytesOf {x : Nat} (hx : x < inode.iSize.toNat) :
    (bytesOf disk inode)[x]? = some (fileByte disk inode x) := by
  rw [bytesOf, List.getElem?_map, List.getElem?_range hx]
  rfl

theorem getD_bytesOf (disk : Disk) (inode : Inode) (x : Nat) :
    (bytesOf disk inode).getD x 0 = oldByte disk inode x := by
  rw [oldByte]
  split_ifs with hx
  · rw [List.getD_eq_getElem?_getD, getElem?_bytesOf (by omega)]
    rfl
  · exact List.getD_eq_default _ _ (by rw [length_bytesOf]; omega)

/-- A write with at most one block after its first lays the buffer over the file. -/
theorem Steps.splices (hno : NoHole disk inode) (hlive : Live disk inode) {pos count : Nat}
    (hcount : 0 < count) (hend : ((pos + count : Nat) : Int) ≤ maxSize)
    (hrest : restBytes pos count ≤ 1024) {buf : Nat → UInt8}
    (h : Steps disk inode pos count buf disk' inode') : bytesOf disk' inode' =
      splice 0 (bytesOf disk inode) pos ((List.range count).map buf) := by
  have hlen : ((List.range count).map buf).length = count := by
    rw [List.length_map, List.length_range]
  have hne : (List.range count).map buf ≠ [] := by
    rw [← List.length_pos_iff, hlen]
    exact hcount
  have hsize := h.size
  have h0 := hno.nonneg
  have htotal : inode'.iSize.toNat = max inode.iSize.toNat (pos + count) := by omega
  refine List.ext_getElem? fun x => ?_
  by_cases hx : x < inode'.iSize.toNat
  · have hin : x < max (bytesOf disk inode).length
        (pos + ((List.range count).map buf).length) := by
      rw [length_bytesOf, hlen]
      omega
    rw [getElem?_bytesOf hx, getElem?_splice hne hin, h.bytes hno hlive hend (by omega),
      scattered_of_le hrest, getD_bytesOf, hlen]
    by_cases hmid : pos ≤ x ∧ x < pos + count
    · have hi : x - pos < ((List.range count).map buf).length := by omega
      rw [if_pos hmid, if_pos hmid, List.getD_eq_getElem _ _ hi, List.getElem_map,
        List.getElem_range]
    · rw [if_neg hmid, if_neg hmid]
  · have hout : (splice 0 (bytesOf disk inode) pos ((List.range count).map buf)).length ≤ x := by
      rw [length_splice hne, length_bytesOf, hlen]
      omega
    rw [List.getElem?_eq_none (by rw [length_bytesOf]; omega), List.getElem?_eq_none hout]

theorem Steps.trimmed (hno : NoHole disk inode) (hlive : Live disk inode) {pos count : Nat}
    (hend : ((pos + count : Nat) : Int) ≤ maxSize) (hrest : restBytes pos count ≤ 1024)
    {buf : Nat → UInt8} (h : Steps disk inode pos count buf disk' inode') :
    Trimmed disk' inode' := by
  intro x hle hlt
  have hsize := h.size
  rw [h.bytes_zones hno hlive hend hlt, scattered_of_le hrest, if_neg (by omega), oldByte,
    if_neg (by omega)]

/-- The same for a _write that returns, as the records say it. -/
theorem write_splices (h : Table disk) (hn : Used disk inode.iInum)
    (hsame : stored disk inode.iInum = onDisk inode)
    (htrim : Trimmed disk (stored disk inode.iInum)) {pos count : Nat} (hcount : 0 < count)
    (hsmall : count ≤ 4096) (hrest : restBytes pos count ≤ 1024) {ret : Int} {buf : Nat → UInt8}
    (hwrite : Zone.write disk inode pos buf count ptrs = .ok (ret, disk', inode')) :
    ret = count ∧ bytesOf disk' (stored disk' inode.iInum) =
        splice 0 (bytesOf disk (stored disk inode.iInum)) pos ((List.range count).map buf) ∧
      Trimmed disk' (stored disk' inode.iInum) := by
  obtain ⟨hown, -, -, -⟩ := h.ready hn hsame
  have hlive : Live disk inode := ⟨hn.1, hn.2.1, hn.2.2, inodeBlk_lt (h.inside _ hn)⟩
  obtain ⟨hbound, hroom⟩ := FileIo.write_needs h.reserved hown hcount hsmall hwrite
  have hfits := write_only_fits h.reserved hown hlive hroom hcount hbound hwrite
  obtain ⟨disk₁, inode₁, hwrite₁, hsteps⟩ :=
    write_of_fits h.reserved hown hlive hroom hcount hbound hfits buf ptrs
  obtain ⟨rfl, heq⟩ := Prod.mk.inj (Except.ok.inj (hwrite.symm.trans hwrite₁))
  obtain ⟨rfl, rfl⟩ := Prod.mk.inj heq
  obtain ⟨-, hself, -, -⟩ := h.write hn hsame hwrite
  rw [hsame] at htrim ⊢
  rw [hself]
  have hno : NoHole disk inode := ⟨hown, htrim⟩
  have hbytes := Steps.splices hno hlive hcount hbound hrest hsteps
  have hend := Steps.trimmed hno hlive hbound hrest hsteps
  exact ⟨rfl, hbytes, hend⟩

end Writing

/-! ## Reading a file -/

section Reading

open RxdOs.Fs.FileIo

variable {o o' : OpenFile} {fuel pos count : Nat}

/-- The rounds of a read inside the file, with at most one block after the first. -/
theorem sysReadLoop_data (hown : Owned disk inode) {t t' : FileIo.Reading} (hpos : t.fPos = pos)
    (hleft : t.left = count) (hdone : t.done = 0)
    (hend : ((pos + count : Nat) : Int) ≤ inode.iSize) (hrest : restBytes pos count ≤ 1024)
    (hloop : sysReadLoop disk inode fuel t = .ok t') : t'.fPos = pos + count ∧ t'.left = 0 ∧
      t'.count = t.count ∧ ∀ i < count, t'.usr i = fileByte disk inode (pos + i) := by
  have hle := hown.le
  simp only [maxSize] at hle
  have hsplit := first_add_rest pos count
  have hfirst : firstBytes pos count ≤ 1024 - pos % 1024 := min_le_right _ _
  cases fuel with
  | zero => cases hloop
  | succ fuel =>
    rcases Nat.eq_zero_or_pos count with rfl | hcount
    · rw [sysReadLoop_end hleft] at hloop
      obtain rfl := Except.ok.inj hloop
      refine ⟨by omega, by omega, rfl, fun i hi => absurd hi (Nat.not_lt_zero i)⟩
    have hchunk : chunk t.left = count := by
      rw [hleft, chunk_nat, min_eq_left (by omega)]
    have hread := @read_eq disk inode pos count hown.le hcount hend (by omega) t.buffer
    rw [← hpos, ← hchunk] at hread
    have hzero : toU32 (t.left - chunk t.left) = 0 := by
      rw [hchunk, hleft, sub_self]
      rfl
    have hshown := sysReadLoop_shown (by omega) hread (by omega) hloop
    rw [sysReadLoop_got (by omega) hread (by omega) hshown] at hloop
    cases fuel with
    | zero => cases hloop
    | succ fuel =>
      rw [sysReadLoop_end hzero] at hloop
      obtain rfl := Except.ok.inj hloop
      refine ⟨?_, hzero, rfl, fun i hi => ?_⟩
      · show wrap (t.fPos + chunk t.left) = pos + count
        rw [hchunk, hpos]
        exact wrap_of_range (by omega) (by omega)
      · simp only [hdone, hchunk]
        rw [if_pos (by omega), Nat.sub_zero, if_pos hi, gathered, if_pos (.inl hrest)]

/-- A read that returns gives the bytes of the file, as far as there are any. -/
theorem sysRead_data (hs : FileIo.Sound o) (hcount : count < 2 ^ 32) {ret : Int}
    {found : Found} {usr usr' : Nat → UInt8}
    (hread : FileIo.sysRead fuel o count found usr = .ok (ret, usr', o'))
    (hrest : restBytes o.fPos.toNat (available o count) ≤ 1024) :
    ret = available o count ∧ o' = { o with fPos := o.fPos + available o count } ∧
      ∀ i < available o count,
        usr' i = fileByte o.disk o.inode (o.fPos.toNat + i) := by
  obtain ⟨pos, hpos⟩ := Int.eq_ofNat_of_zero_le hs.position.1
  obtain ⟨-, hfits⟩ := sysRead_only_fits hs hcount hread
  have hle := hs.owned.le
  have h0 := hs.owned.nonneg
  simp only [maxSize] at hle
  have hav : available o count = min count (o.inode.iSize.toNat - pos) := by
    rw [available, hpos, Int.toNat_natCast]
  rw [hpos, Int.toNat_natCast] at hrest ⊢
  simp only [FileIo.sysRead, withPage_eq_ok, bind_eq_ok, pure_eq_ok, Except.ok.injEq,
    Prod.mk.injEq] at hread
  obtain ⟨-, t, hloop, rfl, rfl, rfl⟩ := hread
  suffices hdone : t.fPos = pos + available o count ∧ t.left = 0 ∧
      t.count = available o count ∧
      ∀ i < available o count, t.usr i = fileByte o.disk o.inode (pos + i) by
    obtain ⟨hp, hl, hc, hbytes⟩ := hdone
    refine ⟨?_, by rw [hp], hbytes⟩
    rw [hl, hc, sub_zero]
    exact wrap_of_range (by omega) (by omega)
  by_cases hshort : count = 0 ∨ ((pos + count : Nat) : Int) ≤ o.inode.iSize
  · have hall : available o count = count := by omega
    rw [hall] at hrest ⊢
    rcases Nat.eq_zero_or_pos count with rfl | hc
    · cases fuel with
      | zero => cases hloop
      | succ fuel =>
        rw [sysReadLoop_end rfl] at hloop
        obtain rfl := Except.ok.inj hloop
        exact ⟨by rw [hpos]; simp, rfl, rfl, fun i hi => absurd hi (Nat.not_lt_zero i)⟩
    · exact sysReadLoop_data hs.owned hpos rfl rfl (hshort.resolve_left (Nat.ne_of_gt hc)) hrest
        hloop
  · -- the first round is cut to what the file has left
    rw [not_or] at hshort
    have hc : 0 < count := Nat.pos_of_ne_zero hshort.1
    have hin := (Or.resolve_left hfits hshort.1).1
    have hleft : o.inode.iSize - pos = available o count := by omega
    have hsplit := first_add_rest pos (available o count)
    have hfirst : firstBytes pos (available o count) ≤ 1024 - pos % 1024 := min_le_right _ _
    cases fuel with
    | zero => cases hloop
    | succ fuel =>
      rw [sysReadLoop_over hs.owned.le hpos rfl hc rfl (by omega) (by omega)] at hloop
      obtain ⟨hp, hl, hcnt, hbytes⟩ := sysReadLoop_data hs.owned hpos hleft rfl (by omega) hrest
        hloop
      exact ⟨hp, hl, hcnt.trans hleft, hbytes⟩

/-- A write that returns is one _write of the bytes of the user. -/
theorem sysWrite_data (hs : FileIo.Sound o) (hcount : 0 < count)
    (hrest : restBytes o.fPos.toNat count ≤ 1024) {ret : Int} {found : Found} {usr : Nat → UInt8}
    (hwrite : FileIo.sysWrite fuel o count found usr ptrs = .ok (ret, o')) :
    ret = count ∧ o'.fPos = o.fPos + count ∧ o.fPos + count ≤ maxSize ∧ ∃ buf,
      Zone.write o.disk o.inode o.fPos buf count ptrs = .ok (count, o'.disk, o'.inode) ∧
        ∀ i < count, buf i = usr i := by
  obtain ⟨pos, hpos⟩ := Int.eq_ofNat_of_zero_le hs.position.1
  rw [hpos, Int.toNat_natCast] at hrest
  have hsplit := first_add_rest pos count
  have hfirst : firstBytes pos count ≤ 1024 - pos % 1024 := min_le_right _ _
  simp only [FileIo.sysWrite, withPage_eq_ok, bind_eq_ok, pure_eq_ok, Except.ok.injEq,
    Prod.mk.injEq] at hwrite
  obtain ⟨-, t, hloop, rfl, rfl⟩ := hwrite
  cases fuel with
  | zero => cases hloop
  | succ fuel =>
    have hchunk : chunk count = count := by
      rw [chunk_nat, min_eq_left (by omega)]
    rw [sysWriteLoop, if_pos (Int.natCast_pos.mpr hcount)] at hloop
    simp only [bind_eq_ok, hchunk] at hloop
    obtain ⟨_, -, ⟨bytes, disk₁, inode₁⟩, hput, hloop⟩ := hloop
    rw [hpos] at hput
    obtain ⟨hbound, hroom⟩ := write_needs hs.reserved hs.owned hcount (by omega) hput
    have hfits := write_only_fits hs.reserved hs.owned hs.live hroom hcount hbound hput
    obtain ⟨disk₂, inode₂, hput₂, -⟩ := write_of_fits hs.reserved hs.owned hs.live hroom hcount
      hbound hfits (filled usr ⟨o, count, 0, found.page, found.screen⟩) ptrs
    obtain rfl : bytes = count := congrArg Prod.fst (Except.ok.inj (hput.symm.trans hput₂))
    have hzero : toU32 ((count : Int) - count) = 0 := by
      rw [sub_self]
      rfl
    have hwrap : wrap (o.fPos + count) = o.fPos + count := by
      simp only [maxSize] at hbound
      exact wrap_of_range (by omega) (by omega)
    rw [if_pos (Int.natCast_pos.mpr hcount)] at hloop
    cases fuel with
    | zero => cases hloop
    | succ fuel =>
      rw [sysWriteLoop_end hzero] at hloop
      obtain rfl := Except.ok.inj hloop
      refine ⟨?_, hwrap, ?_, _, hpos ▸ hput, fun i hi => ?_⟩
      · show wrap ((count : Int) - toU32 ((count : Int) - count)) = count
        rw [hzero, sub_zero]
        simp only [maxSize] at hbound
        exact wrap_of_range (by omega) (by omega)
      · rw [hpos]
        exact_mod_cast hbound
      · simp only [filled, hchunk]
        rw [if_pos (by exact_mod_cast hi), Nat.zero_add]

end Reading

/-! ## Operations on dentries -/

section Dentries

variable {s s' : FsState} {env : Env} {d : DentryPtr} {dname : QStr} {r : Option DentryPtr}
  {path : Pathname} {c : CStr}

/-- get_dentry only reads the disk. -/
theorem getDentry_disk {parent : DentryPtr} (hget : getDentry s parent dname env = .ok (r, s')) :
    s'.vol.disk = s.vol.disk := by
  obtain ⟨dir, -, ⟨x, -, -, rfl⟩ | ⟨-, pos, inum, -, ⟨-, -, rfl⟩ |
    ⟨-, q, vol, x, dName, hinode, -, -, -, -, rfl⟩⟩⟩ := getDentry_ok hget
  · rfl
  · rfl
  · exact (getInode_reads hinode).1

theorem putDentry_spares (h : Indexed s es) (hd : d ∈ s.dentryList)
    (hput : putDentry s d env = .ok s') : Spared s.vol.disk s'.vol.disk (filesOf es) := by
  obtain ⟨-, parent, p, hparent, hp, hend⟩ := putDentry_ok hput
  obtain ⟨-, rfl⟩ | ⟨-, hne, vol, hvol, rfl⟩ := hend
  · exact .refl _ _
  obtain rfl : parent = .root :=
    Option.some.inj (hparent.symm.trans (h.cached.rooted.parent_of_put hd hput))
  have hentries : Entries (DentryCache.unlinkDentry s d .root p).vol es := by
    refine h.entries.recount rfl ?_
    rw [unlinkDentry_inode]
    rfl
  have hcut := (h.cached.unlinkDentry hd hp .root).1
  show Spared (DentryCache.unlinkDentry s d .root p).vol.disk vol.disk (filesOf es)
  exact Entries.putInode_spares hentries hcut.through (h.cached.linked d hd p hp)
    (h.inode_ne_root hd hne hp) hvol

theorem close_spares (h : Indexed s es) (hd : d ∈ s.dentryList) (hclose : close s d env = .ok s') :
    Spared s.vol.disk s'.vol.disk (filesOf es) := by
  have hparent : (s.dentry d).dParent = some .root := by
    simp only [DentryCache.close, bind_eq_ok] at hclose
    obtain ⟨s₁, hput, -⟩ := hclose
    exact h.cached.rooted.parent_of_put hd hput
  rw [close_eq_putDentry hparent] at hclose
  exact putDentry_spares h hd hclose

theorem opendir_spares (h : Indexed s es) (hdir : opendir s path env = .ok (r, s')) :
    Spared s.vol.disk s'.vol.disk (filesOf es) := by
  obtain ⟨-, ⟨-, -, rfl⟩ | ⟨-, -, -, hclose⟩⟩ := opendir_ok hdir
  · exact .refl _ _
  · have hspared := close_spares (h.addRef .root) h.cached.rooted.root hclose
    exact hspared

theorem openPath_spares (h : Indexed s es) (hopen : openPath s path env = .ok (r, s')) :
    Spared s.vol.disk s'.vol.disk (filesOf es) := by
  obtain ⟨-, ⟨-, -, rfl⟩ | ⟨-, ⟨x, -, -, hget⟩ | ⟨-, -, hclose⟩⟩⟩ := openPath_ok hopen
  · exact .refl _ _
  · have hdisk := getDentry_disk hget
    rw [hdisk]
    exact .refl _ _
  · have hspared := close_spares (h.addRef .root) h.cached.rooted.root hclose
    exact hspared

/-- create_dentry keeps the files of the entries there were, and the size of the new one. -/
theorem createDentry_spares (h : Indexed s es) (hnew : New s es p)
    (hcreate : createDentry s .root dname p env = .ok (some d, s')) :
    Spared s.vol.disk s'.vol.disk (filesOf es) ∧
      (s'.vol.inode p).iInum = (s.vol.inode p).iInum ∧
      (s'.vol.inode p).iSize = (s.vol.inode p).iSize ∧ s'.vol.inodeList = s.vol.inodeList ∧
      (s'.dentry d).dInode = some p := by
  obtain ⟨_, -, hr⟩ | ⟨hget, dir, name, ret, disk, dirInode, x, dName, hdir, -, hadd, hx,
    hfresh, -, hr, hcount⟩ := createDentry_ok hcreate
  · cases hr
  obtain rfl := Option.some.inj hr
  obtain rfl : dir = .root := h.cached.top dir hdir
  have hv := h.cached.through
  have hadded : Through { s.vol.setInode .root dirInode with disk := disk } :=
    hv.addDirEntry hv.root.1 hadd
  have hroot : d ≠ .root := fun heq => hfresh (heq ▸ h.cached.rooted.root)
  have hself : (addDentry { s with vol := { s.vol.setInode .root dirInode with disk := disk } } d
      .root dName p).vol.inode p =
        { s.vol.inode p with iRefcnt := (s.vol.inode p).iRefcnt + 1 } := by
    rw [addDentry_inode, if_pos rfl]
    have hother : (s.vol.setInode .root dirInode).inode p = s.vol.inode p :=
      Function.update_of_ne hnew.notRoot ..
    show ({ (s.vol.setInode .root dirInode).inode p with
      iRefcnt := ((s.vol.setInode .root dirInode).inode p).iRefcnt + 1 } : Inode) = _
    rw [hother]
  obtain ⟨disk', hrec, rfl⟩ := countLink_ok hcount
  rw [hself] at hrec
  refine ⟨?_, ?_, ?_, rfl, ?_⟩
  · obtain ⟨counted, hcounted⟩ : ∃ inode : Inode, inode = { s.vol.inode p with
        iRefcnt := (s.vol.inode p).iRefcnt + 1
        iNlink := wrapShort ((s.vol.inode p).iNlink + 1) } := ⟨_, rfl⟩
    have hrec' : writeInode disk counted (env.ptrs 2) = .ok disk' := by
      rw [hcounted]
      exact hrec
    have hnum : counted.iInum = (s.vol.inode p).iInum := by rw [hcounted]
    have hused : Used disk counted.iInum := by
      have hused := hadded.used p hnew.mem
      have hother : (s.vol.setInode .root dirInode).inode p = s.vol.inode p :=
        Function.update_of_ne hnew.notRoot ..
      simp only at hused
      rwa [hother, ← hnum] at hused
    have hroots : Spared s.vol.disk disk (filesOf es) := by
      refine (Through.addDirEntry_spares hv hadd).mono ?_
      rintro m ⟨r, hr, rfl⟩
      exact (h.entries.linked r hr).1
    refine hroots.trans ((Table.record_spares hadded.table hused hrec').mono ?_)
    rintro m ⟨r, hr, rfl⟩ heq
    exact absurd (heq.trans hnum) (hnew.number r hr)
  · simp only [Volume.setInode, Function.update_self]
    exact (congrArg Inode.iInum hself :)
  · simp only [Volume.setInode, Function.update_self]
    exact (congrArg Inode.iSize hself :)
  · show ((addDentry _ d .root dName p).dentry d).dInode = some p
    rw [addDentry_self hroot]

end Dentries

/-! ## Dentries that stay -/

section Stays

variable {s s' s₁ : FsState} {env : Env} {d x : DentryPtr} {p : InodePtr} {path : Pathname}
  {flags : UInt32} {r : Option DentryPtr}

/-- A dentry stays listed, with its name and its link. -/
structure Stays (s s' : FsState) (x : DentryPtr) : Prop where
  listed : x ∈ s.dentryList → x ∈ s'.dentryList
  name : (s'.dentry x).dName = (s.dentry x).dName
  inode : (s'.dentry x).dInode = (s.dentry x).dInode

theorem Stays.refl (s : FsState) (x : DentryPtr) : Stays s s x := ⟨id, rfl, rfl⟩

theorem Stays.trans (h : Stays s s₁ x) (h' : Stays s₁ s' x) : Stays s s' x :=
  ⟨fun hx => h'.listed (h.listed hx), h'.name.trans h.name, h'.inode.trans h.inode⟩

theorem stays_addRef (s : FsState) (d : DentryPtr) (n : Int) (x : DentryPtr) :
    Stays s (addRef s d n) x := by
  refine ⟨id, ?_, ?_⟩
  · rw [addRef_dentry]
  · rw [addRef_dentry]

theorem stays_addDentry {dName : DName} (hroot : d ≠ .root) (hx : x ≠ d) :
    Stays s (addDentry s d .root dName p) x := by
  refine ⟨List.mem_cons_of_mem d, ?_, ?_⟩
  · rw [addDentry_of_ne hroot hx]
  · rw [addDentry_of_ne hroot hx]

theorem stays_getDentry {dname : QStr} (hx : x ∈ s.dentryList)
    (hget : getDentry s .root dname env = .ok (r, s')) : Stays s s' x := by
  obtain ⟨dir, -, ⟨y, -, -, rfl⟩ | ⟨-, pos, inum, -, ⟨-, -, rfl⟩ |
    ⟨-, q, vol, y, dName, -, hy, hfresh, -, -, rfl⟩⟩⟩ := getDentry_ok hget
  · exact stays_addRef s y 1 x
  · exact .refl _ x
  · have hroot : y ≠ .root := by
      rw [hy]
      exact DentryPtr.noConfusion
    have hstays : Stays { s with vol := vol } (addDentry { s with vol := vol } y .root dName q) x :=
      stays_addDentry hroot (ne_of_mem_of_not_mem hx hfresh)
    exact ⟨hstays.listed, hstays.name, hstays.inode⟩

theorem stays_putDentry (hx : x ≠ d) (hput : putDentry s d env = .ok s') : Stays s s' x := by
  obtain ⟨-, parent, p, -, -, ⟨-, rfl⟩ | ⟨-, -, vol, -, rfl⟩⟩ := putDentry_ok hput
  · refine ⟨id, ?_, ?_⟩
    · rw [unlinkDentry_of_ne hx]
    · rw [unlinkDentry_of_ne hx]
  · refine ⟨fun hmem => (List.mem_erase_of_ne hx).mpr hmem, ?_, ?_⟩
    · show ((unlinkDentry s d parent p).dentry x).dName = _
      rw [unlinkDentry_of_ne hx]
    · show ((unlinkDentry s d parent p).dentry x).dInode = _
      rw [unlinkDentry_of_ne hx]

theorem stays_close (h : Cached s) (hd : d ∈ s.dentryList) (hx : x ≠ d)
    (hclose : close s d env = .ok s') : Stays s s' x := by
  have hparent : (s.dentry d).dParent = some .root := by
    simp only [DentryCache.close, bind_eq_ok] at hclose
    obtain ⟨s₁, hput, -⟩ := hclose
    exact h.rooted.parent_of_put hd hput
  rw [close_eq_putDentry hparent] at hclose
  exact stays_putDentry hx hclose

theorem stays_opendir (h : Cached s) (hx : x ≠ .root)
    (hdir : opendir s path env = .ok (r, s')) : Stays s s' x := by
  obtain ⟨-, ⟨-, -, rfl⟩ | ⟨-, -, -, hclose⟩⟩ := opendir_ok hdir
  · exact stays_addRef s .root 1 x
  · have h₁ := h.addRef .root 1
    exact (stays_addRef s .root 1 x).trans (stays_close h₁ h₁.rooted.root hx hclose)

theorem stays_openPath (h : Cached s) (hx : x ∈ s.dentryList) (hne : x ≠ .root)
    (hopen : openPath s path env = .ok (r, s')) : Stays s s' x := by
  have hroot := stays_addRef s .root 1 x
  obtain ⟨-, ⟨-, -, rfl⟩ | ⟨-, ⟨y, -, -, hget⟩ | ⟨-, -, hclose⟩⟩⟩ := openPath_ok hopen
  · exact hroot
  · exact hroot.trans (stays_getDentry hx hget)
  · have h₁ := h.addRef .root 1
    exact hroot.trans (stays_close h₁ h₁.rooted.root hne hclose)

theorem stays_createDentry {dname : QStr} (hx : x ∈ s.dentryList)
    (hcreate : createDentry s .root dname p env = .ok (some d, s')) : Stays s s' x := by
  obtain ⟨_, -, hr⟩ | ⟨-, dir, name, ret, disk, dirInode, y, dName, -, -, -, hy,
    hfresh, -, hr, hcount⟩ := createDentry_ok hcreate
  · cases hr
  have hroot : y ≠ .root := by
    rw [hy]
    exact DentryPtr.noConfusion
  obtain ⟨disk', -, rfl⟩ := countLink_ok hcount
  have hstays : Stays s (addDentry { s with vol := { s.vol.setInode dir dirInode with
      disk := disk } } y .root dName p) x := by
    have h : Stays { s with vol := { s.vol.setInode dir dirInode with disk := disk } }
        (addDentry { s with vol := { s.vol.setInode dir dirInode with disk := disk } } y .root
          dName p) x := stays_addDentry hroot (ne_of_mem_of_not_mem hx hfresh)
    exact ⟨h.listed, h.name, h.inode⟩
  exact ⟨hstays.listed, hstays.name, hstays.inode⟩

theorem createDentry_listed {dname : QStr}
    (hcreate : createDentry s .root dname p env = .ok (some d, s')) : d ∈ s'.dentryList := by
  obtain ⟨_, -, hr⟩ | ⟨-, dir, name, ret, disk, dirInode, y, dName, -, -, -, -,
    -, -, hr, hcount⟩ := createDentry_ok hcreate
  · cases hr
  obtain rfl := Option.some.inj hr
  obtain ⟨disk', -, rfl⟩ := countLink_ok hcount
  exact List.mem_cons_self ..

theorem stays_openLast {filename : QStr} (hx : x ∈ s.dentryList)
    (hlast : openLast s .root filename flags env = .ok (r, s')) : Stays s s' x := by
  obtain ⟨y, -, hget⟩ | ⟨-, ⟨-, -, rfl⟩ | ⟨-, y, q, s₁, -, hnew, hcreate⟩⟩ := openLast_ok hlast
  · exact stays_getDentry hx hget
  · exact .refl _ x
  · obtain ⟨vol, -, rfl⟩ := newInodeOf_ok hnew
    have hlist : x ∈ ({ s with
      vol := vol, links := Base.ListHead.initListHead s.links (.head q) } : FsState).dentryList := hx
    have hstays := stays_createDentry hlist hcreate
    exact ⟨hstays.listed, hstays.name, hstays.inode⟩

/-- A dentry that stays leads to the same number, for its name is still that of the same entry. -/
theorem Stays.number {q : InodePtr} (hst : Stays s s' x) (h : Indexed s es) (h' : Indexed s' es')
    (hsub : ∀ r ∈ es, r ∈ es') (hx : x ∈ s.dentryList) (hne : x ≠ .root)
    (hp : (s.dentry x).dInode = some p) (hq : (s'.dentry x).dInode = some q) :
    (s'.vol.inode q).iInum = (s.vol.inode p).iInum := by
  obtain ⟨r, hr, hname, hnum⟩ := h.tidy.named x hx hne p hp
  obtain ⟨r', hr', hname', hnum'⟩ := h'.tidy.named x (hst.listed hx) hne q hq
  rw [hst.name, hname] at hname'
  have hsame : r.name = r'.name := congrArg QStr.name hname'
  rw [hnum, hnum', List.inj_on_of_nodup_map h'.entries.listing.nodup (hsub r hr) hr' hsame]

end Stays

end RxdOs.Fs.FileBodies
