/- RxdOs/Fs/RootDirectory
   source: fs/fs.c (_add_dir_entry, create_inode, get_inode, put_inode, _write, write_inode)
   digest: The entries of the root directory, and what the operations on inodes leave of them. -/

import RxdOs.Fs.InodeTable

set_option autoImplicit false
set_option relaxedAutoImplicit false

namespace RxdOs.Fs.RootDirectory

open RxdOs.Base.Assert RxdOs.Base.Int32 RxdOs.Fs.Bitmap RxdOs.Fs.Layout RxdOs.Fs.Zone RxdOs.Fs.Name
  RxdOs.Fs.Dir RxdOs.Fs.ZoneMap RxdOs.Fs.FileBytes RxdOs.Fs.InodeCache RxdOs.Fs.InodeRecord
  RxdOs.Fs.InodeRegion RxdOs.Fs.Directory RxdOs.Fs.InodeTable

/-- The files of the entries are in use and have links, and none is the root directory itself. -/
def Linked (disk : Disk) (es : List Record) : Prop :=
  ∀ r ∈ es, r.inode ≠ 1 ∧ Used disk r.inode ∧ (stored disk r.inode).iNlink ≠ 0

/-- The root directory of a volume is the records `es`. -/
structure Named (v : Volume) (es : List Record) : Prop where
  listing : Listing ⟨v.disk, v.inode .root⟩ es
  plain : ∀ r ∈ es, slash ∉ r.name

/-- And all of its files are there; number 0 is never given to a file. -/
structure Entries (v : Volume) (es : List Record) : Prop extends Named v es where
  linked : Linked v.disk es
  zero : InodeBit v.disk 0

variable {v v' : Volume} {es : List Record} {p : InodePtr} {disk' : Disk} {inode' : Inode}
  {ptrs : Pointers}

/-! ## Frames -/

section Frames

theorem zone_lt {size : Int} {x : Nat} (hx : (x : Int) < size) (hsize : size ≤ maxSize) :
    ((Fin.ofNat 9 (x / 1024) : Fin 9) : Int) < zonesOf size := by
  have hval := zone_val (hx.trans_le hsize)
  have hzones := zonesOf_eq ((Int.natCast_nonneg x).trans hx.le) hsize
  omega

/-- The records of a directory stay when its zones and their blocks do. -/
theorem listing_frame {s s' : DirState} (h : Listing s es) (hsize : s'.dir.iSize = s.dir.iSize)
    (hzone : s'.dir.iZone = s.dir.iZone) (hblocks : ∀ k : Fin 9, (k : Int) < zonesOf s.dir.iSize →
      s'.disk (s.dir.iZone k) = s.disk (s.dir.iZone k)) : Listing s' es := by
  refine ⟨hsize.trans h.size, h.room, fun i hi j hj => ?_, h.nodup⟩
  have hx : ((32 * i + j : Nat) : Int) < s.dir.iSize := by
    rw [h.size]
    omega
  rw [← h.bytes i hi j hj]
  refine fileByte_congr ?_
  rw [hzone]
  exact hblocks _ (zone_lt hx h.size_le)

theorem root_number (h : Through v) (hp : p ∈ v.inodeList) (hne : p ≠ .root) :
    (v.inode p).iInum ≠ 1 := fun heq =>
  hne (h.single p hp .root h.root.1 (heq.trans h.root.2.symm))

/-- The zones of the root inode, as its record has them. -/
theorem root_owns (h : Through v) {k : Fin 9} (hk : (k : Int) < zonesOf (v.inode .root).iSize) :
    Owns v.disk 1 k ((v.inode .root).iZone k) := by
  have hsame := h.same .root h.root.1
  rw [h.root.2] at hsame
  rw [Owns, hsame]
  exact ⟨h.table.root, hk, rfl⟩

/-- Nothing is written to the blocks of the root directory. -/
theorem Named.keep (h : Named v es) (hv : Through v)
    (hroot : onDisk (v'.inode .root) = onDisk (v.inode .root))
    (hblocks : ∀ k b, Owns v.disk 1 k b → v'.disk b = v.disk b) : Named v' es := by
  have hsize : (v'.inode .root).iSize = (v.inode .root).iSize := (congrArg Inode.iSize hroot :)
  have hzone : (v'.inode .root).iZone = (v.inode .root).iZone := (congrArg Inode.iZone hroot :)
  exact ⟨listing_frame h.listing hsize hzone fun k hk => hblocks k _ (root_owns hv hk), h.plain⟩

/-- Only counts change. -/
theorem Named.recount (h : Named v es) (hdisk : v'.disk = v.disk)
    (hroot : onDisk (v'.inode .root) = onDisk (v.inode .root)) : Named v' es := by
  have hsize : (v'.inode .root).iSize = (v.inode .root).iSize := (congrArg Inode.iSize hroot :)
  have hzone : (v'.inode .root).iZone = (v.inode .root).iZone := (congrArg Inode.iZone hroot :)
  refine ⟨listing_frame h.listing hsize hzone fun k _ => ?_, h.plain⟩
  exact congrFun hdisk _

theorem Entries.recount (h : Entries v es) (hdisk : v'.disk = v.disk)
    (hroot : onDisk (v'.inode .root) = onDisk (v.inode .root)) : Entries v' es :=
  ⟨h.toNamed.recount hdisk hroot, hdisk ▸ h.linked, hdisk ▸ h.zero⟩

/-- The files of the entries stay, but for what happens to inode `n`. -/
theorem linked_beside (h : Linked v.disk es) {n : Nat}
    (hused : ∀ m, Used v.disk m → m ≠ n → Used disk' m)
    (hrecords : ∀ m, Used v.disk m → m ≠ n → stored disk' m = stored v.disk m)
    (hself : ∀ r ∈ es, r.inode = n → Used disk' n ∧ (stored disk' n).iNlink ≠ 0) :
    Linked disk' es := by
  intro r hr
  obtain ⟨hroot, huse, hlink⟩ := h r hr
  by_cases hn : r.inode = n
  · obtain ⟨huse', hlink'⟩ := hself r hr hn
    rw [hn]
    exact ⟨hn ▸ hroot, huse', hlink'⟩
  · rw [hrecords _ huse hn]
    exact ⟨hroot, hused _ huse hn, hlink⟩

theorem zero_congr {disk : Disk} (h : InodeBit disk 0) (hmap : disk' 2 = disk 2) :
    InodeBit disk' 0 :=
  (inodeBit_congr hmap (by decide)).mpr h

/-- An operation on another inode that keeps to its own blocks and its own record. -/
theorem Entries.beside (h : Entries v es) (hv : Through v) (hp : p ∈ v.inodeList)
    (hne : p ≠ .root) (hbeside : Beside v.disk disk' (v.inode p).iInum)
    (hself : ∀ r ∈ es, r.inode = (v.inode p).iInum →
      (stored disk' (v.inode p).iInum).iNlink ≠ 0) :
    Entries { v.setInode p inode' with disk := disk' } es := by
  refine ⟨h.toNamed.keep hv ?_ fun k b hb => ?_, ?_, zero_congr h.zero hbeside.map⟩
  · exact congrArg onDisk (Function.update_of_ne hne.symm ..)
  · exact hbeside.blocks 1 k b (root_number hv hp hne).symm hb
  · refine linked_beside h.linked (fun m hm _ => (used_congr hbeside.map m).mpr hm)
      hbeside.records fun r hr hn => ⟨?_, hself r hr hn⟩
    exact (used_congr hbeside.map _).mpr (hv.used p hp)

end Frames

/-! ## Operations on other inodes -/

section Others

theorem stored_nlink (h : Through v) (hp : p ∈ v.inodeList) :
    (stored v.disk (v.inode p).iInum).iNlink = (v.inode p).iNlink := by
  rw [h.same p hp]
  rfl

/-- _write of a file. -/
theorem Entries.write (h : Entries v es) (hv : Through v) (hp : p ∈ v.inodeList)
    (hne : p ≠ .root) {pos count ret : Int} {buf : Nat → UInt8}
    (hwrite : Zone.write v.disk (v.inode p) pos buf count ptrs = .ok (ret, disk', inode')) :
    Entries { v.setInode p inode' with disk := disk' } es := by
  obtain ⟨hbeside, hself, -, -⟩ := hv.table.write (hv.used p hp) (hv.same p hp) hwrite
  refine h.beside hv hp hne hbeside fun r hr hn => ?_
  have hlink : inode'.iNlink = (v.inode p).iNlink := (write_same hwrite).iNlink
  have hold := (h.linked r hr).2.2
  rw [hn, stored_nlink hv hp] at hold
  rw [hself]
  show inode'.iNlink ≠ 0
  rwa [hlink]

/-- get_inode reads the disk only. -/
theorem Entries.getInode (h : Entries v es) (hv : Through v) {inum addr : Nat}
    (hget : InodeCache.getInode v inum addr = .ok (p, v')) : Entries v' es := by
  rcases getInode_ok hget with ⟨-, rfl⟩ | ⟨-, -, hp, inode, -, rfl⟩
  · refine h.recount rfl ?_
    by_cases hroot : p = .root
    · subst hroot
      simp only [Volume.setInode, Function.update_self]
      rfl
    · exact congrArg onDisk (Function.update_of_ne (Ne.symm hroot) ..)
  · have hne : InodePtr.root ≠ p := fun heq => hp (heq ▸ hv.root.1)
    exact h.recount rfl (congrArg onDisk (Function.update_of_ne hne ..))

/-- create_inode takes a number that no entry has. -/
theorem Entries.createInode (h : Entries v es) (hv : Through v) {mode addr : Nat}
    (hcreate : InodeCache.createInode v mode addr ptrs = .ok (p, v'))
    (hfree : ∃ m < tableSize, ¬InodeBit v.disk m) (hmode : mode < 256 ^ 2) :
    Entries v' es ∧ Through v' ∧ p ∈ v'.inodeList ∧ p ≠ .root ∧
      (∀ r ∈ es, r.inode ≠ (v'.inode p).iInum) ∧ (v'.inode p).iNlink = 0 := by
  obtain ⟨m, hnew, -, hthrough, hused, hrecords, hblocks, -, hne, hinode, hlist⟩ :=
    hv.createInode hcreate hfree hmode
  have hself : v'.inode p = newInode m mode := by
    rw [hinode, Function.update_self]
  have hfresh : ∀ r ∈ es, r.inode ≠ m := fun r hr heq => hnew (heq ▸ (h.linked r hr).2.1)
  refine ⟨⟨h.toNamed.keep hv ?_ fun k b hb => ?_, ?_, ?_⟩, hthrough, ?_, hne, ?_, ?_⟩
  · rw [hinode, Function.update_of_ne hne.symm]
  · obtain ⟨hroot, hk, rfl⟩ := hb
    exact hblocks _ ((hv.table.owned 1 hroot).taken k hk).2.1
  · exact linked_beside h.linked (fun k hk _ => (hused k).mpr (.inr hk))
      (fun k _ hk => hrecords k hk) fun r hr hn => absurd hn (hfresh r hr)
  · obtain ⟨-, -, n, disk, halloc, -, hrec, -, -⟩ := createInode_ok hcreate
    obtain ⟨-, -, -, himap, -⟩ := allocInodeNr_ok halloc
    exact zero_congr ((himap 0).mpr (.inr h.zero)) (writeInode_below hrec (by decide))
  · rw [hlist]
    exact List.mem_cons_self ..
  · rw [hself]
    exact hfresh
  · rw [hself]
    rfl

/-- The blocks of other inodes stay when an inode is deleted. -/
theorem deleteInode_blocks {disk : Disk} {inode : Inode} (h : Table disk)
    (hn : Used disk inode.iInum) (hsame : stored disk inode.iInum = onDisk inode)
    (hdel : deleteInode disk inode = .ok (disk', inode')) {m : Nat} {k : Fin 9} {b : Nat}
    (hb : Owns disk m k b) : disk' b = disk b := by
  simp only [deleteInode, bind_eq_ok, pure_eq_ok, Except.ok.injEq, Prod.mk.injEq] at hdel
  obtain ⟨⟨disk₁, inode₁⟩, hres, disk₂, hfree, rfl, -⟩ := hdel
  obtain ⟨hown, -, hfits, -⟩ := h.ready hn hsame
  obtain ⟨-, hkept, -⟩ := reserveZone_ok (Owned.others_meta h.reserved hown) hfits hres
  obtain ⟨-, -, hother⟩ := freeInodeNr_ok hfree
  obtain ⟨hm, hk, rfl⟩ := hb
  obtain ⟨hbit, hdata, hlt⟩ := (h.owned m hm).taken k hk
  simp only [super] at hdata
  have hmap : (stored disk m).iZone k ≠ super.sImapStart := by
    simp only [super]
    omega
  have hzmap : (stored disk m).iZone k ≠ 3 := by omega
  exact (hother _ hmap).trans (hkept _ hlt hzmap hbit)

/-- Only one number is given back. -/
theorem deleteInode_zero {disk : Disk} {inode : Inode} (h : Table disk)
    (hn : Used disk inode.iInum) (hsame : stored disk inode.iInum = onDisk inode)
    (hdel : deleteInode disk inode = .ok (disk', inode')) (hzero : InodeBit disk 0) :
    InodeBit disk' 0 := by
  simp only [deleteInode, bind_eq_ok, pure_eq_ok, Except.ok.injEq, Prod.mk.injEq] at hdel
  obtain ⟨⟨disk₁, inode₁⟩, hres, disk₂, hfree, rfl, -⟩ := hdel
  obtain ⟨hown, -, hfits, -⟩ := h.ready hn hsame
  obtain ⟨-, hkept, hbut⟩ := reserveZone_ok (Owned.others_meta h.reserved hown) hfits hres
  obtain ⟨-, himap, -⟩ := freeInodeNr_ok hfree
  have hne : 0 ≠ inode₁.iInum := by
    rw [hbut.iInum]
    exact hn.1.symm
  have hmap : disk₁ 2 = disk 2 := hkept 2 (by decide) (by decide) (h.reserved 2 (by decide))
  exact (himap 0).mpr ⟨hne, zero_congr hzero hmap⟩

/-- put_inode deletes only an inode without links, which no entry names. -/
theorem Entries.putInode (h : Entries v es) (hv : Through v) (hp : p ∈ v.inodeList)
    (hne : p ≠ .root) (hput : InodeCache.putInode v p ptrs = .ok v') : Entries v' es := by
  obtain ⟨-, ⟨-, rfl⟩ | ⟨-, -, -, hinode, hend⟩⟩ := putInode_ok hput
  · exact h.recount rfl (congrArg onDisk (Function.update_of_ne hne.symm ..))
  have hroot : onDisk (v'.inode .root) = onDisk (v.inode .root) := by
    rw [hinode .root hne.symm]
  have hsame := hv.same p hp
  have hused : Used v.disk ({ v.inode p with iRefcnt := 0 } : Inode).iInum := hv.used p hp
  have hone : ({ v.inode p with iRefcnt := 0 } : Inode).iInum ≠ 1 := root_number hv hp hne
  obtain ⟨hlink, hdel⟩ | ⟨hlink, -, hrec⟩ := hend
  · obtain ⟨huse, hrecords, -⟩ := hv.table.delete hused hsame hone hdel
    have hblocks : ∀ k b, Owns v.disk 1 k b → v'.disk b = v.disk b := fun k b hb =>
      deleteInode_blocks hv.table hused hsame hdel hb
    refine ⟨h.toNamed.keep hv hroot hblocks, ?_,
      deleteInode_zero hv.table hused hsame hdel h.zero⟩
    refine linked_beside h.linked (fun m hm hmn => (huse m).mpr ⟨hmn, hm⟩) hrecords
      fun r hr hn => absurd hlink ?_
    have hold := (h.linked r hr).2.2
    rwa [hn, stored_nlink hv hp] at hold
  · have hrange : InRange { v.inode p with iRefcnt := 0 } := by
      have hstored := stored_inRange v.disk (v.inode p).iInum
      rw [hsame] at hstored
      exact hstored
    have hnum : ({ v.inode p with iRefcnt := 0 } : Inode).iInum = (v.inode p).iInum := rfl
    obtain ⟨hbeside, hself, -⟩ :=
      hv.table.relink (hv.used p hp) hsame hnum rfl rfl hrange hrec
    have hblocks : ∀ k b, Owns v.disk 1 k b → v'.disk b = v.disk b := fun k b hb =>
      hbeside.blocks 1 k b hone.symm hb
    refine ⟨h.toNamed.keep hv hroot hblocks, ?_, zero_congr h.zero hbeside.map⟩
    refine linked_beside h.linked (fun m hm _ => (used_congr hbeside.map m).mpr hm)
      hbeside.records fun r hr hn => ⟨(used_congr hbeside.map _).mpr hused, ?_⟩
    rw [hself]
    exact hlink

end Others

/-! ## A new entry -/

section Adding

variable {disk : Disk} {dir : Inode} {target : DirEntry} {name : CStr} {r : Record} {ret : Int}

theorem strncmpLoop_congr {num : Nat} {str str' str2 : CStr}
    (h : ∀ i, charAt str i = charAt str' i) :
    strncmpLoop num str str2 = strncmpLoop num str' str2 := by
  induction num generalizing str str' str2 with
  | zero => rw [strncmpLoop, strncmpLoop, h 0]
  | succ num ih =>
    have htail : ∀ i, charAt str.tail i = charAt str'.tail i := by
      intro i
      rw [charAt_tail, charAt_tail]
      exact h (i + 1)
    rw [strncmpLoop, strncmpLoop, h 0, ih htail]

/-- strncmp sees the characters of a name, not how many NULs are written behind it. -/
theorem strncmp_congr {num : Nat} {str str' str2 : CStr} (h : ∀ i, charAt str i = charAt str' i) :
    strncmp str str2 num = strncmp str' str2 num := by
  rw [strncmp, strncmp, strncmpLoop_congr h]

theorem findLoop_congr (h : ∀ i, charAt name i = charAt target.name i) (fuel : Nat) (pos : Int) :
    findLoop disk dir { target with name := name } fuel pos =
      (findLoop disk dir target fuel pos).map fun x => (x.1, { x.2 with name := name }) := by
  induction fuel generalizing pos with
  | zero => rfl
  | succ fuel ih =>
    rw [findLoop, findLoop]
    cases hread : read disk dir pos (fun _ => 0) dirRecLen with
    | error e => rfl
    | ok x =>
      obtain ⟨n, buf⟩ := x
      simp only [ok_bind, strncmp_congr h, ih]
      split_ifs
      · rfl
      · rfl
      · rfl

theorem encodeEntry_congr (h : ∀ i, charAt name i = charAt target.name i) :
    encodeEntry { target with name := name } = encodeEntry target := by
  funext i
  simp only [encodeEntry, h]

/-- _add_dir_entry writes the characters of the name. -/
theorem addDirEntry_congr (h : ∀ i, charAt name i = charAt target.name i) :
    addDirEntry disk dir { target with name := name } ptrs =
      addDirEntry disk dir target ptrs := by
  rw [addDirEntry, addDirEntry, findDirEntry, findDirEntry, findLoop_congr h, encodeEntry_congr h]
  cases hfind : findLoop disk dir target dirFuel 0 with
  | error e => rfl
  | ok x => rfl

/-- The records of the root directory beside the blocks that are in use elsewhere. -/
theorem Named.holds (h : Named v es) (hv : Through v) :
    Holds (Others v.disk (v.inode .root)) ⟨v.disk, v.inode .root⟩ es := by
  have hused := hv.used .root hv.root.1
  obtain ⟨hown, -, hfits, -⟩ := hv.table.ready hused (hv.same .root hv.root.1)
  have hmeta := Owned.others_meta hv.table.reserved hown
  exact ⟨hmeta, hmeta _ (inodeBlk_lt (hv.table.inside _ hused)), hused, h.listing.size,
    h.listing.room, hfits, h.listing.bytes, h.listing.nodup⟩

/-- _add_dir_entry of a new name returns only where the directory has room for it. -/
theorem room_of_add {base : Nat → Prop} {s : DirState} (h : Holds base s es)
    (hnew : ∀ q ∈ es, q.name ≠ r.name)
    (hadd : addDirEntry s.disk s.dir r.entry ptrs = .ok (ret, disk', inode')) :
    es.length < 224 := by
  have hfind : findDirEntry s.disk s.dir r.entry = .ok (-1, r.entry) := by
    rcases h.listing.findDirEntry r with ⟨k, hk, hname, -⟩ | ⟨-, hfind⟩
    · exact absurd hname (hnew _ (List.getElem_mem hk))
    · exact hfind
  have hnot : ¬(-1 : Int) ≥ 0 := by decide
  simp only [addDirEntry, hfind, ok_bind, if_neg hnot, h.freeLoop, bind_eq_ok] at hadd
  obtain ⟨⟨n, disk₁, dir₁⟩, hwrite, -⟩ := hadd
  have hs0 : 0 ≤ s.dir.iSize := by
    rw [h.size]
    omega
  obtain ⟨-, ⟨-, -, hend⟩, -, -⟩ := write_ok h.metadata hs0 h.size_le h.fits hwrite
  simp only [dirRecLen, maxSize] at hend
  omega

/-- A new name comes last. -/
theorem Named.add (h : Named v es) (hv : Through v) (hslash : slash ∉ r.name)
    (hnew : ∀ q ∈ es, q.name ≠ r.name)
    (hadd : addDirEntry v.disk (v.inode .root) r.entry ptrs = .ok (ret, disk', inode')) :
    Named { v.setInode .root inode' with disk := disk' } (es ++ [r]) := by
  have hholds := h.holds hv
  have hroot : (v.setInode .root inode').inode .root = inode' := by
    simp only [Volume.setInode, Function.update_self]
  rcases hholds.add_new (room_of_add hholds hnew hadd) hnew ptrs with
    ⟨disk, dir, hsame, hafter⟩ | ⟨-, herror⟩
  · rw [hadd] at hsame
    cases hsame
    refine ⟨?_, fun q hq => ?_⟩
    · show Listing ⟨disk', (v.setInode .root inode').inode .root⟩ _
      rw [hroot]
      exact hafter.listing
    · rcases List.mem_append.mp hq with hold | hlast
      · exact h.plain q hold
      · rw [List.mem_singleton.mp hlast]
        exact hslash
  · rw [hadd] at herror
    cases herror

/-- The files of the old entries are not touched. -/
theorem linked_add (h : Linked v.disk es) (hv : Through v)
    (hadd : addDirEntry v.disk (v.inode .root) target ptrs = .ok (ret, disk', inode')) :
    Linked disk' es ∧ disk' 2 = v.disk 2 := by
  simp only [addDirEntry, bind_eq_ok] at hadd
  obtain ⟨⟨found, de⟩, -, hadd⟩ := hadd
  split_ifs at hadd
  · simp only [pure_eq_ok, Except.ok.injEq, Prod.mk.injEq] at hadd
    obtain ⟨-, rfl, -⟩ := hadd
    exact ⟨h, rfl⟩
  simp only [bind_eq_ok, pure_eq_ok, Except.ok.injEq, Prod.mk.injEq] at hadd
  obtain ⟨pos, -, ⟨count, disk₁, dir₁⟩, hwrite, disk₂, hrec, -, rfl, -⟩ := hadd
  obtain ⟨hbeside, -, -, hnum⟩ :=
    hv.table.write (hv.used .root hv.root.1) (hv.same .root hv.root.1) hwrite
  rw [hv.root.2] at hbeside hnum
  have hmap : disk₂ 2 = v.disk 2 := (writeInode_below hrec (by decide)).trans hbeside.map
  refine ⟨linked_beside h (fun m hm _ => (used_congr hmap m).mpr hm) (fun m hm hmn => ?_)
    fun q hq hn => absurd hn (h q hq).1, hmap⟩
  rw [stored_writeInode_of_ne hrec (show m ≠ dir₁.iInum from hnum ▸ hmn)]
  exact hbeside.records m hm hmn

/-- The file of the new entry gets its first link. -/
theorem Named.countLink (h : Named v (es ++ [r])) (hv : Through v) (hlinked : Linked v.disk es)
    (hbit : InodeBit v.disk 0) (hp : p ∈ v.inodeList) (hne : p ≠ .root)
    (hnum : r.inode = (v.inode p).iInum)
    (hnew : ∀ q ∈ es, q.inode ≠ (v.inode p).iInum) (hzero : (v.inode p).iNlink = 0)
    (hrec : writeInode v.disk { v.inode p with iNlink := wrapShort ((v.inode p).iNlink + 1) } ptrs =
      .ok disk') : Entries { v.setInode p
        { v.inode p with iNlink := wrapShort ((v.inode p).iNlink + 1) } with disk := disk' }
          (es ++ [r]) := by
  obtain ⟨-, hold, -⟩ := hv.table.ready (hv.used p hp) (hv.same p hp)
  have hused := hv.used p hp
  have hone := root_number hv hp hne
  have hsame : ({ v.inode p with iNlink := wrapShort ((v.inode p).iNlink + 1) } : Inode).iInum =
      (v.inode p).iInum := rfl
  obtain ⟨hbeside, hself, -⟩ :=
    hv.table.relink hused (hv.same p hp) hsame rfl rfl (inRange_countLink hold) hrec
  have hlink : (stored disk' (v.inode p).iInum).iNlink ≠ 0 := by
    rw [hself]
    show wrapShort ((v.inode p).iNlink + 1) ≠ 0
    rw [hzero]
    decide
  have huse : Used disk' (v.inode p).iInum := (used_congr hbeside.map _).mpr hused
  refine ⟨h.keep hv (congrArg onDisk (Function.update_of_ne hne.symm ..))
    fun k b hb => hbeside.blocks 1 k b hone.symm hb, fun q hq => ?_, zero_congr hbit hbeside.map⟩
  rcases List.mem_append.mp hq with hqe | hlast
  · exact linked_beside hlinked (fun m hm _ => (used_congr hbeside.map m).mpr hm) hbeside.records
      (fun q hq hn => absurd hn (hnew q hq)) q hqe
  · rw [List.mem_singleton.mp hlast, hnum]
    exact ⟨hone, huse, hlink⟩

end Adding

/-! ## What is free is found -/

section Total

theorem Entries.createInode_total (h : Entries v es) {n addr : Nat} (hn : n < sectorBits)
    (hfree : ¬InodeBit v.disk n) (hfresh : .obj addr ∉ v.inodeList) (mode : Nat) (ptrs : Pointers) :
    ∃ p v', InodeCache.createInode v mode addr ptrs = .ok (p, v') := by
  obtain ⟨⟨m, disk⟩, halloc⟩ := allocInodeNr_of_free hn hfree
  obtain ⟨hlt, hbit, -, himap, -⟩ := allocInodeNr_ok halloc
  have hne : m ≠ 0 := fun heq => hbit (heq ▸ h.zero)
  obtain ⟨disk', hrec⟩ := @writeInode_of_bit disk (newInode m mode) ptrs hne hlt
    ((himap m).mpr (.inl rfl))
  refine ⟨.obj addr, ⟨disk', Function.update v.inode (.obj addr) (newInode m mode),
    .obj addr :: v.inodeList⟩, ?_⟩
  simp only [InodeCache.createInode, halloc, allocInode, access_pos hfresh, ok_bind, hrec,
    pure_eq_ok]

/-- An entry that compares equal to none of the others finds room, and a block. -/
theorem Named.add_total (h : Named v es) (hv : Through v) (hroom : es.length < 224)
    {target : DirEntry} (hnone : ∀ q ∈ es, strncmp target.name q.entry.name target.nameLen ≠ 0)
    (hfree : ∃ b < sectorBits, ¬ZoneBit v.disk b) (ptrs : Pointers) :
    ∃ x, addDirEntry v.disk (v.inode .root) target ptrs = .ok x := by
  have hfind : Dir.findDirEntry v.disk (v.inode .root) target = .ok (-1, target) := by
    obtain ⟨k, hk, hcmp, -⟩ | ⟨-, hfind⟩ := h.listing.search target
    · exact absurd hcmp (hnone _ (List.getElem_mem hk))
    · exact hfind
  obtain ⟨ret, disk, dir, disk', -, -, hadd⟩ | ⟨hfull, -⟩ :=
    (h.holds hv).add_missing hroom hfind ptrs
  · exact ⟨_, hadd⟩
  · obtain ⟨b, hb, hbit⟩ := hfree
    exact absurd (hfull b hb) hbit

end Total

/-! ## On the disk -/

section Start

/-- A file system that fs_init finds: inodes with zones of their own, and a root directory. -/
def Sound (disk : Disk) : Prop := Table disk ∧ InodeBit disk 0 ∧ ∃ es,
  Listing ⟨disk, stored disk 1⟩ es ∧ (∀ r ∈ es, slash ∉ r.name) ∧ Linked disk es

theorem Sound.mkfs {disk : Disk} (h : Layout.mkfs disk ptrs = .ok disk') : Sound disk' := by
  have htable := Table.mkfs h
  obtain ⟨himap, -⟩ := mkfs_ok h
  have hself : stored disk' 1 = onDisk mkfsRoot :=
    stored_writeInode h ⟨by decide, by decide, by decide, by decide, fun _ => by simp [mkfsRoot]⟩
  have hlisting : Listing ⟨disk', stored disk' 1⟩ [] := by
    rw [hself]
    exact ⟨rfl, by decide, fun i hi => absurd hi (Nat.not_lt_zero i), List.nodup_nil⟩
  exact ⟨htable, (himap 0 (by decide)).mpr (by decide), [], hlisting,
    fun r hr => absurd hr List.not_mem_nil, fun r hr => absurd hr List.not_mem_nil⟩

/-- The root inode in memory is as on the disk. -/
theorem Sound.entries (h : Sound v.disk) (hv : Through v) : ∃ es, Entries v es := by
  obtain ⟨-, hzero, es, hlisting, hplain, hlinked⟩ := h
  have hsame := hv.same .root hv.root.1
  rw [hv.root.2] at hsame
  rw [hsame] at hlisting
  exact ⟨es, ⟨listing_frame hlisting rfl rfl fun _ _ => rfl, hplain⟩, hlinked, hzero⟩

end Start

end RxdOs.Fs.RootDirectory
