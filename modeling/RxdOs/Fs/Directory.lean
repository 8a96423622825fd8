/- RxdOs/Fs/Directory
   source: fs/fs.c (_find_dir_entry, _add_dir_entry), lib/string.c (strncmp)
   digest: A directory file refines a finite map from names to inode numbers. -/

import Mathlib.Data.List.GetD
import RxdOs.Lib.Execution
import RxdOs.Fs.Dir
import RxdOs.Fs.FileBytes

set_option autoImplicit false
set_option relaxedAutoImplicit false

namespace RxdOs.Fs.Directory

open RxdOs.Base.Assert RxdOs.Base.Int32 RxdOs.Lib.Execution RxdOs.Fs.Bitmap RxdOs.Fs.Layout
  RxdOs.Fs.Zone RxdOs.Fs.ZoneMap RxdOs.Fs.Name RxdOs.Fs.Dir RxdOs.Fs.FileBytes

/-- What a directory entry records: a name of 1 to 23 characters, and an inode. -/
structure Record where
  name : CStr
  noNul : ∀ c ∈ name, c ≠ 0
  nonempty : name ≠ []
  short : name.length < maxDentryLength
  inode : Nat
  live : inode ≠ 0
  inode_lt : inode < 2 ^ 32
  recLen : Nat
  recLen_lt : recLen < 2 ^ 16
  fileType : Nat
  fileType_lt : fileType < 2 ^ 8

/-- The name field: the name, padded with NULs. -/
def padded (name : CStr) : CStr := name ++ List.replicate (maxDentryLength - name.length) 0

/-- The `struct dir_entry` of a record. -/
def Record.entry (r : Record) : DirEntry :=
  ⟨r.inode, r.recLen, r.name.length, r.fileType, padded r.name⟩

/-- The disk and the inode of a directory. -/
structure DirState where
  disk : Disk
  dir : Inode

/-- One _add_dir_entry; `ptrs` is what the pointer fields of the inode hold. -/
structure Add where
  record : Record
  ptrs : Pointers
  ret : Int

def Step (s : DirState) (a : Add) (s' : DirState) : Prop :=
  addDirEntry s.disk s.dir a.record.entry a.ptrs = .ok (a.ret, s'.disk, s'.dir)

/-- An inode without data, on a disk where its record and the metadata area are not free. -/
structure EmptyDir (s : DirState) : Prop where
  size : s.dir.iSize = 0
  zones : ∀ k, s.dir.iZone k = 0
  number : s.dir.iInum ≠ 0 ∧ s.dir.iInum < sectorBits ∧ InodeBit s.disk s.dir.iInum
  record : ZoneBit s.disk (inodeBlk s.dir.iInum)
  metadata : ∀ b < super.sDataStart, ZoneBit s.disk b

/-! ## The map a directory stands for -/

/-- Which inode number a name is bound to. -/
abbrev NameMap := CStr → Option Nat

/-- The first binding of a name stays. -/
def NameMap.add (m : NameMap) (r : Record) : NameMap :=
  if m r.name = none then Function.update m r.name (some r.inode) else m

/-- The bindings that a run of _add_dir_entry calls leaves. -/
def bindings (tr : List (Add × DirState)) : NameMap :=
  tr.foldl (fun m e => m.add e.1.record) fun _ => none

/-- _find_dir_entry returns the position and the inode number of exactly the bound names. -/
def Looks (s : DirState) (m : NameMap) : Prop := ∀ r : Record, ∃ pos de,
  findDirEntry s.disk s.dir r.entry = .ok (pos, de) ∧
    match m r.name with
    | some inum => 0 ≤ pos ∧ de.inode = inum
    | none => pos = -1

/-- _add_dir_entry of a bound name fails and changes nothing; of another one it adds the
binding and keeps the others, unless the disk is full. -/
def Adds (s : DirState) (m : NameMap) : Prop := ∀ (r : Record) (ptrs : Pointers),
  (m r.name ≠ none → addDirEntry s.disk s.dir r.entry ptrs = .ok (-1, s.disk, s.dir)) ∧
    (m r.name = none → (∃ disk dir, addDirEntry s.disk s.dir r.entry ptrs = .ok (0, disk, dir) ∧
        Looks ⟨disk, dir⟩ (Function.update m r.name (some r.inode))) ∨
      (∀ b < sectorBits, ZoneBit s.disk b) ∧
        addDirEntry s.disk s.dir r.entry ptrs = .error mapFull)

/-- Entry `i` as it stands on the disk. -/
def entryAt (s : DirState) (i : Nat) : DirEntry :=
  decodeEntry fun j => fileByte s.disk s.dir (32 * i + j)

/-- The name fields on the disk, in order. -/
def namesOf (s : DirState) : List CStr :=
  (List.range (s.dir.iSize / 32).toNat).map fun i => (entryAt s i).name

/-! ## Names and records as bytes -/

theorem charAt_padded (name : CStr) (i : Nat) : charAt (padded name) i = charAt name i := by
  by_cases hi : i < name.length
  · rw [charAt, padded, List.getD_append _ _ _ _ hi]
    rfl
  · rw [charAt_of_le (not_lt.mp hi), charAt, padded, List.getD_append_right _ _ _ _ (not_lt.mp hi)]
    exact charAt_replicate_zero _ _

/-- The name field as 24 characters. -/
theorem map_charAt {name : CStr} (h : name.length ≤ maxDentryLength) :
    (List.range maxDentryLength).map (charAt name) = padded name := by
  have hlen : (padded name).length = maxDentryLength := by
    rw [padded, List.length_append, List.length_replicate]
    omega
  refine List.ext_getElem (by simpa using hlen.symm) fun i hi hi' => ?_
  rw [List.getElem_map, List.getElem_range, ← charAt_padded, charAt_of_lt hi']

/-- The bytes of an entry read back as the entry, with its name padded. -/
theorem decodeEntry_encodeEntry {de : DirEntry} (hinode : de.inode < 2 ^ 32)
    (hrecLen : de.recLen < 2 ^ 16) (hnameLen : de.nameLen < 2 ^ 8) (hfileType : de.fileType < 2 ^ 8)
    {buf : Nat → UInt8} (h : ∀ j < 32, buf j = encodeEntry de j) :
    decodeEntry buf = { de with name := (List.range maxDentryLength).map (charAt de.name) } := by
  have hinode' : wordAt buf 0 4 = de.inode := by
    refine wordAt_byteOf_nat (by decide) hinode fun i hi => ?_
    rw [Nat.zero_add, h i (by omega), encodeEntry, if_pos hi]
  have hrecLen' : wordAt buf 4 2 = de.recLen := by
    refine wordAt_byteOf_nat (by decide) hrecLen fun i hi => ?_
    rw [h (4 + i) (by omega), encodeEntry, if_neg (by omega), if_pos (by omega), Nat.add_sub_cancel_left]
  have hnameLen' : (buf 6).toNat = de.nameLen := by
    have hbyte : buf 6 = byteOf de.nameLen 0 := h 6 (by decide)
    rw [hbyte, byteOf_toNat]
    simp only [toU32]
    omega
  have hfileType' : (buf 7).toNat = de.fileType := by
    have hbyte : buf 7 = byteOf de.fileType 0 := h 7 (by decide)
    rw [hbyte, byteOf_toNat]
    simp only [toU32]
    omega
  have hname : (List.range maxDentryLength).map (fun i => buf (8 + i)) =
      (List.range maxDentryLength).map (charAt de.name) := by
    refine List.map_congr_left fun i hi => ?_
    have hlt : i < 24 := List.mem_range.mp hi
    rw [h (8 + i) (by omega), encodeEntry, if_neg (by omega), if_neg (by omega), if_neg (by omega),
      if_neg (by omega), Nat.add_sub_cancel_left]
  rw [decodeEntry, hinode', hrecLen', hnameLen', hfileType', hname]

/-- The bytes of a record read back as the record. -/
theorem decodeEntry_encode (r : Record) {buf : Nat → UInt8}
    (h : ∀ j < 32, buf j = encodeEntry r.entry j) : decodeEntry buf = r.entry := by
  have hshort : r.name.length < 24 := r.short
  have hname : (List.range maxDentryLength).map (charAt (padded r.name)) = padded r.name := by
    rw [← map_charAt r.short.le]
    exact List.map_congr_left fun i _ => by rw [map_charAt r.short.le, charAt_padded]
  rw [decodeEntry_encodeEntry r.inode_lt r.recLen_lt (by show r.name.length < 2 ^ 8; omega)
    r.fileType_lt h]
  show ({ r.entry with name := (List.range maxDentryLength).map (charAt (padded r.name)) } : DirEntry) = _
  rw [hname]
  rfl

/-- An entry is decoded from its 32 bytes. -/
theorem decodeEntry_congr {buf buf' : Nat → UInt8} (h : ∀ j < 32, buf j = buf' j) :
    decodeEntry buf = decodeEntry buf' := by
  have hinode : wordAt buf 0 4 = wordAt buf' 0 4 := wordAt_congr fun i hi => h _ (by omega)
  have hrecLen : wordAt buf 4 2 = wordAt buf' 4 2 := wordAt_congr fun i hi => h _ (by omega)
  have hname : (List.range maxDentryLength).map (fun i => buf (8 + i)) =
      (List.range maxDentryLength).map fun i => buf' (8 + i) := by
    refine List.map_congr_left fun i hi => h _ ?_
    have hlt : i < 24 := List.mem_range.mp hi
    omega
  rw [decodeEntry, decodeEntry, hinode, hrecLen, hname, h 6 (by decide), h 7 (by decide)]

/-- strncmp over the length of one name tells it from every other, prefixes and extensions
included: it goes on to the terminator. -/
theorem strncmp_entry {r q : Record} :
    strncmp r.entry.name q.entry.name r.entry.nameLen = 0 ↔ r.name = q.name := by
  have hne : r.name.length ≠ 0 := fun h => r.nonempty (List.length_eq_zero_iff.mp h)
  show strncmp (padded r.name) (padded q.name) r.name.length = 0 ↔ _
  rw [strncmp, if_neg hne, strncmpLoop_eq_zero fun i hi => by
    rw [charAt_padded]
    exact charAt_ne_zero r.noNul hi]
  simp only [charAt_padded]
  constructor
  · exact eq_of_charAt r.noNul q.noNul
  · exact fun heq i _ => by rw [heq]

/-! ## The content of a directory -/

/-- The bytes of a directory are the records `es`. -/
structure Listing (s : DirState) (es : List Record) : Prop where
  size : s.dir.iSize = 32 * es.length
  room : es.length ≤ 224
  bytes : ∀ i (h : i < es.length), ∀ j < 32,
    fileByte s.disk s.dir (32 * i + j) = encodeEntry es[i].entry j
  nodup : (es.map Record.name).Nodup

/-- The entries of a directory are the records `es`; `base` are the blocks in use elsewhere. -/
structure Holds (base : Nat → Prop) (s : DirState) (es : List Record) : Prop where
  metadata : ∀ b < super.sDataStart, base b
  record : base (inodeBlk s.dir.iInum)
  number : s.dir.iInum ≠ 0 ∧ s.dir.iInum < sectorBits ∧ InodeBit s.disk s.dir.iInum
  size : s.dir.iSize = 32 * es.length
  room : es.length ≤ 224
  fits : Fits base s.disk s.dir (zonesOf s.dir.iSize)
  bytes : ∀ i (h : i < es.length), ∀ j < 32,
    fileByte s.disk s.dir (32 * i + j) = encodeEntry es[i].entry j
  nodup : (es.map Record.name).Nodup

/-! ## Searching the entries -/

/-- The directory is `n` whole entries long. -/
structure Sized (s : DirState) (n : Nat) : Prop where
  size : s.dir.iSize = 32 * n
  room : n ≤ 224

section Search

variable {s : DirState} {n : Nat}

theorem Sized.size_le (h : Sized s n) : s.dir.iSize ≤ maxSize := by
  have hroom := h.room
  rw [h.size, maxSize]
  omega

/-- The _read at position `32 * i` returns entry `i`. -/
theorem Sized.read_entry (h : Sized s n) {i : Nat} (hi : i < n) :
    ∃ buf, Zone.read s.disk s.dir (32 * i : Nat) (fun _ => 0) dirRecLen = .ok (dirRecLen, buf) ∧
      decodeEntry buf = entryAt s i := by
  have hblock : 32 * i % 1024 + 32 ≤ 1024 := by omega
  have hend : ((32 * i + 32 : Nat) : Int) ≤ s.dir.iSize := by
    rw [h.size]
    omega
  exact ⟨_, read_bytes (by decide) hblock hend h.size_le, decodeEntry_congr fun j hj => if_pos hj⟩

theorem Sized.read_end (h : Sized s n) :
    Zone.read s.disk s.dir (32 * n : Nat) (fun _ => 0) dirRecLen = .ok (-1, fun _ => 0) := by
  have hroom := h.room
  refine @read_past s.disk s.dir (32 * n) 32 _ ?_ (by omega)
  rw [h.size]
  omega

/-- The target of a search that stops at entry `k`. -/
def foundAt (s : DirState) (target : DirEntry) (k : Nat) : DirEntry :=
  { target with
    inode := (entryAt s k).inode
    recLen := (entryAt s k).recLen
    fileType := (entryAt s k).fileType }

/-- The search stops at the first entry whose name compares equal, or at the end. -/
theorem Sized.findLoop (h : Sized s n) (target : DirEntry) {fuel i : Nat} (hi : i ≤ n)
    (hfuel : n < fuel + i) :
    (∃ k < n, strncmp target.name (entryAt s k).name target.nameLen = 0 ∧
        Dir.findLoop s.disk s.dir target fuel (32 * i : Nat) =
          .ok ((32 * k : Nat), foundAt s target k)) ∨
      (∀ k < n, i ≤ k → strncmp target.name (entryAt s k).name target.nameLen ≠ 0) ∧
        Dir.findLoop s.disk s.dir target fuel (32 * i : Nat) = .ok ((32 * n : Nat), target) := by
  induction fuel generalizing i with
  | zero => omega
  | succ fuel ih =>
    rcases hi.lt_or_eq with hlt | rfl
    · obtain ⟨buf, hread, hentry⟩ := h.read_entry hlt
      by_cases hcmp : strncmp target.name (entryAt s i).name target.nameLen = 0
      · refine .inl ⟨i, hlt, hcmp, ?_⟩
        rw [Dir.findLoop, hread, ok_bind]
        simp only [hentry, if_pos hcmp]
        rfl
      · have hstep : Dir.findLoop s.disk s.dir target (fuel + 1) (32 * i : Nat) =
            Dir.findLoop s.disk s.dir target fuel (32 * (i + 1) : Nat) := by
          rw [Dir.findLoop, hread, ok_bind]
          simp only [hentry, if_neg hcmp]
          rfl
        rw [hstep]
        rcases ih (i := i + 1) hlt (by omega) with hfound | ⟨hnone, hloop⟩
        · exact .inl hfound
        · refine .inr ⟨fun k hk hik => ?_, hloop⟩
          rcases hik.lt_or_eq with hik | rfl
          · exact hnone k hk hik
          · exact hcmp
    · refine .inr ⟨fun k hk hik => absurd hk (not_lt.mpr hik), ?_⟩
      rw [Dir.findLoop, h.read_end, ok_bind]
      exact if_neg (by decide)

theorem Sized.search (h : Sized s n) (target : DirEntry) :
    (∃ k < n, strncmp target.name (entryAt s k).name target.nameLen = 0 ∧
        Dir.findDirEntry s.disk s.dir target = .ok ((32 * k : Nat), foundAt s target k)) ∨
      (∀ k < n, strncmp target.name (entryAt s k).name target.nameLen ≠ 0) ∧
        Dir.findDirEntry s.disk s.dir target = .ok (-1, target) := by
  have hroom := h.room
  have hfuel : n < dirFuel + 0 := by
    rw [dirFuel]
    omega
  rcases h.findLoop target (Nat.zero_le _) hfuel with ⟨k, hk, hcmp, hloop⟩ | ⟨hnone, hloop⟩
  · refine .inl ⟨k, hk, hcmp, ?_⟩
    have hpos : ((32 * k : Nat) : Int) < s.dir.iSize := by
      rw [h.size]
      omega
    rw [Dir.findDirEntry, show (0 : Int) = ((32 * 0 : Nat) : Int) from rfl, hloop, ok_bind]
    simp only [if_pos hpos]
    rfl
  · refine .inr ⟨fun k hk => hnone k hk (Nat.zero_le _), ?_⟩
    have hpos : ¬((32 * n : Nat) : Int) < s.dir.iSize := by
      rw [h.size]
      omega
    rw [Dir.findDirEntry, show (0 : Int) = ((32 * 0 : Nat) : Int) from rfl, hloop, ok_bind]
    simp only [if_neg hpos]
    rfl

/-- Where every entry has an inode, the first free place is the end. -/
theorem Sized.freeLoop (h : Sized s n) (hlive : ∀ i < n, (entryAt s i).inode ≠ 0) {fuel i : Nat}
    (hi : i ≤ n) (hfuel : n < fuel + i) :
    Dir.freeLoop s.disk s.dir fuel (32 * i : Nat) = .ok (32 * n : Nat) := by
  induction fuel generalizing i with
  | zero => omega
  | succ fuel ih =>
    rcases hi.lt_or_eq with hlt | rfl
    · obtain ⟨buf, hread, hentry⟩ := h.read_entry hlt
      have hstep : Dir.freeLoop s.disk s.dir (fuel + 1) (32 * i : Nat) =
          Dir.freeLoop s.disk s.dir fuel (32 * (i + 1) : Nat) := by
        rw [Dir.freeLoop, hread, ok_bind]
        simp only [hentry, if_neg (hlive i hlt)]
        rfl
      rw [hstep]
      exact ih (i := i + 1) hlt (by omega)
    · rw [Dir.freeLoop, h.read_end, ok_bind]
      exact if_neg (by decide)

end Search

section Lookup

variable {base : Nat → Prop} {s : DirState} {es : List Record}

theorem Listing.sized (h : Listing s es) : Sized s es.length := ⟨h.size, h.room⟩

theorem Listing.size_le (h : Listing s es) : s.dir.iSize ≤ maxSize := h.sized.size_le

theorem Listing.entryAt (h : Listing s es) {i : Nat} (hi : i < es.length) :
    Directory.entryAt s i = es[i].entry := decodeEntry_encode es[i] (h.bytes i hi)

/-- The target of a search that has found `q`. -/
def found (r q : Record) : DirEntry :=
  { r.entry with inode := q.inode, recLen := q.recLen, fileType := q.fileType }

theorem Listing.search (h : Listing s es) (target : DirEntry) :
    (∃ k, ∃ hk : k < es.length,
        strncmp target.name es[k].entry.name target.nameLen = 0 ∧
        Dir.findDirEntry s.disk s.dir target = .ok ((32 * k : Nat),
          { target with
            inode := es[k].inode
            recLen := es[k].recLen
            fileType := es[k].fileType })) ∨
      (∀ q ∈ es, strncmp target.name q.entry.name target.nameLen ≠ 0) ∧
        Dir.findDirEntry s.disk s.dir target = .ok (-1, target) := by
  rcases h.sized.search target with ⟨k, hk, hcmp, hfind⟩ | ⟨hnone, hfind⟩
  · rw [foundAt, h.entryAt hk] at hfind
    rw [h.entryAt hk] at hcmp
    exact .inl ⟨k, hk, hcmp, hfind⟩
  · refine .inr ⟨fun q hq => ?_, hfind⟩
    obtain ⟨k, hk, rfl⟩ := List.getElem_of_mem hq
    rw [← h.entryAt hk]
    exact hnone k hk

/-- _find_dir_entry finds the one record with the name, or none. -/
theorem Listing.findDirEntry (h : Listing s es) (r : Record) :
    (∃ k, ∃ hk : k < es.length, es[k].name = r.name ∧
        Dir.findDirEntry s.disk s.dir r.entry = .ok ((32 * k : Nat), found r es[k])) ∨
      (∀ q ∈ es, q.name ≠ r.name) ∧
        Dir.findDirEntry s.disk s.dir r.entry = .ok (-1, r.entry) := by
  rcases h.search r.entry with ⟨k, hk, hcmp, hfind⟩ | ⟨hnone, hfind⟩
  · exact .inl ⟨k, hk, (strncmp_entry.mp hcmp).symm, hfind⟩
  · refine .inr ⟨fun q hq heq => ?_, hfind⟩
    exact hnone q hq (strncmp_entry.mpr heq.symm)

theorem Holds.listing (h : Holds base s es) : Listing s es := ⟨h.size, h.room, h.bytes, h.nodup⟩

theorem Holds.size_le (h : Holds base s es) : s.dir.iSize ≤ maxSize := h.listing.size_le

theorem Holds.freeLoop (h : Holds base s es) :
    Dir.freeLoop s.disk s.dir dirFuel 0 = .ok (32 * es.length : Nat) := by
  have hroom := h.room
  refine h.listing.sized.freeLoop (fun i hi => ?_) (Nat.zero_le _) ?_
  · rw [h.listing.entryAt hi]
    exact es[i].live
  · rw [dirFuel]
    omega

/-- The names on the disk are those of the records. -/
theorem Holds.namesOf (h : Holds base s es) :
    namesOf s = es.map fun r => padded r.name := by
  have hlen : (s.dir.iSize / 32).toNat = es.length := by
    rw [h.size]
    omega
  rw [Directory.namesOf, hlen]
  refine List.ext_getElem (by simp) fun i hi hi' => ?_
  have hlt : i < es.length := by simpa using hi
  rw [List.getElem_map, List.getElem_range, List.getElem_map, h.listing.entryAt hlt]
  rfl

theorem padded_injective {r q : Record} (h : padded r.name = padded q.name) : r.name = q.name :=
  eq_of_charAt r.noNul q.noNul fun i _ => by rw [← charAt_padded, h, charAt_padded]

/-- No name occurs twice. -/
theorem Holds.nodup_names (h : Holds base s es) : (Directory.namesOf s).Nodup := by
  rw [h.namesOf]
  refine List.Nodup.map_on (fun r hr q hq heq => ?_) h.nodup.of_map
  exact List.inj_on_of_nodup_map h.nodup hr hq (padded_injective heq)

end Lookup

/-! ## Adding an entry -/

section Adding

variable {base : Nat → Prop} {s : DirState} {es : List Record}

theorem inodeBlk_ge (n : Nat) : 4 ≤ inodeBlk n := Nat.le_add_left 4 _

/-- Writing a record leaves the inode bitmap alone. -/
theorem Holds.block_two (h : Holds base s es) {pos count ret : Int} {buf : Nat → UInt8}
    {ptrs : Pointers} {disk : Disk} {dir : Inode}
    (hwrite : Zone.write s.disk s.dir pos buf count ptrs = .ok (ret, disk, dir)) :
    disk 2 = s.disk 2 := by
  have hs0 : 0 ≤ s.dir.iSize := by
    rw [h.size]
    omega
  obtain ⟨hfits, -, -, hframe⟩ := write_ok h.metadata hs0 h.size_le h.fits hwrite
  have hblk := inodeBlk_ge s.dir.iInum
  exact hframe 2 (by decide) (by decide)
    ((h.fits.bits 2 (by decide)).mpr (.inl (h.metadata 2 (by decide))))
    (hfits.zone_ne h.metadata (by decide) (by decide)) (by omega)

/-- A new record at the end of the directory. -/
theorem Holds.append (h : Holds base s es) {r : Record} (hroom : es.length < 224)
    (hnew : ∀ q ∈ es, q.name ≠ r.name) {ret : Int} {disk disk' : Disk} {dir : Inode} {nlink : Int}
    {ptrs ptrs' : Pointers}
    (hwrite : Zone.write s.disk s.dir (32 * es.length : Nat) (encodeEntry r.entry) dirRecLen ptrs =
      .ok (ret, disk, dir))
    (hrec : writeInode disk { dir with iNlink := nlink } ptrs' = .ok disk') :
    Holds base ⟨disk', { dir with iNlink := nlink }⟩ (es ++ [r]) := by
  have hs0 : 0 ≤ s.dir.iSize := by
    rw [h.size]
    omega
  obtain ⟨hfits, ⟨hsize, -, -⟩, hsame, -⟩ := write_ok h.metadata hs0 h.size_le h.fits hwrite
  have hsize' : dir.iSize = 32 * (es.length + 1 : Nat) := by
    rw [hsize, h.size, dirRecLen]
    omega
  have hinum : dir.iInum = s.dir.iInum := hsame.iInum
  have hbytes := @write_bytes base s.disk disk s.dir dir h.metadata hs0 h.size_le h.fits h.record
    (32 * es.length) 32 ret (encodeEntry r.entry) ptrs (by omega) hwrite
  have hbit : InodeBit disk' dir.iInum := by
    have h2 := writeInode_below hrec (b := 2) (by decide)
    rw [hinum, inodeBit_congr (h2.trans (h.block_two hwrite)) h.number.2.1]
    exact h.number.2.2
  have h3 := writeInode_below hrec (b := 3) (by decide)
  obtain ⟨-, -, -, rfl⟩ := writeInode_ok hrec
  have hzone : ∀ x : Nat, (x : Int) < 1024 * zonesOf dir.iSize →
      dir.iZone (Fin.ofNat 9 (x / 1024)) ≠ inodeBlk dir.iInum := by
    intro x hx
    refine Fits.zone_ne_record hfits (hinum ▸ h.record) ?_
    have hle := hfits.le
    rw [show ((Fin.ofNat 9 (x / 1024) : Fin 9) : Int) = ((x / 1024 : Nat) : Int) by
      exact_mod_cast zone_val (by simp only [maxSize]; omega)]
    omega
  have hend : zonesOf dir.iSize = (dir.iSize + 1023) / 1024 := by
    refine zonesOf_eq ?_ ?_
    · omega
    · rw [hsize', maxSize]
      omega
  refine ⟨h.metadata, hinum ▸ h.record, ⟨hinum ▸ h.number.1, hinum ▸ h.number.2.1, ?_⟩, ?_, ?_, ?_,
    fun i hi j hj => ?_, ?_⟩
  · exact hbit
  · show dir.iSize = _
    rw [hsize', List.length_append, List.length_singleton]
  · rw [List.length_append, List.length_singleton]
    omega
  · refine hfits.of_block3 ?_ rfl
    exact h3
  · rw [List.length_append, List.length_singleton] at hi
    have hx : ((32 * i + j : Nat) : Int) < 1024 * zonesOf dir.iSize := by
      rw [hend, hsize']
      omega
    have hsame : fileByte (Function.update disk (inodeBlk dir.iInum) (store
        (disk (inodeBlk dir.iInum)) (inodeOff dir.iInum) sizeofInode
        (Layout.record { dir with iNlink := nlink } ptrs'))) { dir with iNlink := nlink } (32 * i + j) =
        fileByte disk dir (32 * i + j) :=
      fileByte_congr (Function.update_of_ne (hzone _ hx) ..)
    rw [hsame, hbytes hx]
    rcases Nat.lt_succ_iff_lt_or_eq.mp hi with hlt | rfl
    · have hold : ((32 * i + j : Nat) : Int) < 1024 * zonesOf s.dir.iSize := by
        rw [zonesOf_eq hs0 h.size_le, h.size]
        omega
      rw [if_neg (by omega), if_pos hold, h.bytes i hlt j hj, List.getElem_append_left hlt]
    · have hsub : 32 * es.length + j - 32 * es.length = j := by omega
      rw [if_pos (by omega), hsub, List.getElem_append_right le_rfl]
      simp
  · rw [List.map_append, List.nodup_append]
    refine ⟨h.nodup, List.nodup_singleton _, fun a ha b hb heq => ?_⟩
    obtain ⟨q, hq, rfl⟩ := List.mem_map.mp ha
    rw [List.map_singleton, List.mem_singleton] at hb
    exact hnew q hq (heq.trans hb)

/-- _add_dir_entry of a target that is not found writes behind the last entry, unless the disk is
full. -/
theorem Holds.add_missing (h : Holds base s es) {target de : DirEntry} (hroom : es.length < 224)
    (hfind : Dir.findDirEntry s.disk s.dir target = .ok (-1, de)) (ptrs : Pointers) :
    (∃ ret disk dir disk', Zone.write s.disk s.dir (32 * es.length : Nat) (encodeEntry target)
          (32 : Nat) ptrs = .ok (ret, disk, dir) ∧
        writeInode disk { dir with iNlink := wrapShort (dir.iNlink + 1) } ptrs = .ok disk' ∧
        addDirEntry s.disk s.dir target ptrs =
          .ok (0, disk', { dir with iNlink := wrapShort (dir.iNlink + 1) })) ∨
      (∀ b < sectorBits, ZoneBit s.disk b) ∧
        addDirEntry s.disk s.dir target ptrs = .error mapFull := by
  have hfree := h.freeLoop
  have hs0 : 0 ≤ s.dir.iSize := by
    rw [h.size]
    omega
  have hend : ((32 * es.length : Nat) : Int) + (32 : Nat) ≤ maxSize := by
    rw [maxSize]
    omega
  have hone : zonesOf ((32 * es.length : Nat) + (32 : Nat)) ≤ zonesOf s.dir.iSize + 1 := by
    rw [zonesOf_eq (by omega) hend, zonesOf_eq hs0 h.size_le, h.size]
    omega
  have hnotFound : ¬(-1 : Int) ≥ 0 := by decide
  rcases write_total h.metadata h.fits h.number (by decide) (by omega) hend hone
    (encodeEntry target) ptrs with ⟨⟨ret, disk, dir⟩, hwrite⟩ | ⟨hfull, hwrite⟩
  · left
    obtain ⟨-, -, hsame, -⟩ := write_ok h.metadata hs0 h.size_le h.fits hwrite
    have hinum : dir.iInum = s.dir.iInum := hsame.iInum
    have hbit : InodeBit disk dir.iInum := by
      have h2 := h.block_two hwrite
      rw [hinum, inodeBit_congr h2 h.number.2.1]
      exact h.number.2.2
    obtain ⟨disk', hrec⟩ := @writeInode_of_bit disk { dir with
      iNlink := wrapShort (dir.iNlink + 1) } ptrs (hinum ▸ h.number.1) (hinum ▸ h.number.2.1) hbit
    refine ⟨ret, disk, dir, disk', hwrite, hrec, ?_⟩
    rw [addDirEntry, bind_eq_ok]
    refine ⟨_, hfind, ?_⟩
    simp only [if_neg hnotFound]
    rw [bind_eq_ok]
    exact ⟨_, hfree, bind_eq_ok.mpr ⟨_, hwrite, bind_eq_ok.mpr ⟨disk', hrec, rfl⟩⟩⟩
  · right
    refine ⟨hfull, ?_⟩
    rw [addDirEntry, bind_eq_error]
    refine .inr ⟨_, hfind, ?_⟩
    simp only [if_neg hnotFound]
    rw [bind_eq_error]
    exact .inr ⟨_, hfree, bind_eq_error.mpr (.inl hwrite)⟩

/-- _add_dir_entry of a new name appends its record, unless the disk is full. -/
theorem Holds.add_new (h : Holds base s es) {r : Record} (hroom : es.length < 224)
    (hnew : ∀ q ∈ es, q.name ≠ r.name) (ptrs : Pointers) :
    (∃ disk dir, addDirEntry s.disk s.dir r.entry ptrs = .ok (0, disk, dir) ∧
        Holds base ⟨disk, dir⟩ (es ++ [r])) ∨
      (∀ b < sectorBits, ZoneBit s.disk b) ∧
        addDirEntry s.disk s.dir r.entry ptrs = .error mapFull := by
  have hfind : Dir.findDirEntry s.disk s.dir r.entry = .ok (-1, r.entry) := by
    rcases h.listing.findDirEntry r with ⟨k, hk, hname, -⟩ | ⟨-, hfind⟩
    · exact absurd hname (hnew _ (List.getElem_mem hk))
    · exact hfind
  rcases h.add_missing hroom hfind ptrs with ⟨ret, disk, dir, disk', hwrite, hrec, hadd⟩ | hfull
  · exact .inl ⟨disk', _, hadd, h.append hroom hnew hwrite hrec⟩
  · exact .inr hfull

end Adding

/-! ## The map behind the records -/

/-- The bindings of a list of records. -/
def mapOf (es : List Record) : NameMap := fun name =>
  (es.find? fun r => decide (r.name = name)).map Record.inode

section Map

variable {base : Nat → Prop} {s s' : DirState} {es : List Record}

theorem mapOf_eq_none {name : CStr} : mapOf es name = none ↔ ∀ r ∈ es, r.name ≠ name := by
  simp [mapOf]

theorem mapOf_of_mem (hnodup : (es.map Record.name).Nodup) {r : Record} (hr : r ∈ es) :
    mapOf es r.name = some r.inode := by
  cases hfind : es.find? fun q => decide (q.name = r.name) with
  | none => simpa using List.find?_eq_none.mp hfind r hr
  | some q =>
    have hname : q.name = r.name := by simpa using List.find?_some hfind
    have hq := List.mem_of_find?_eq_some hfind
    rw [mapOf, hfind, List.inj_on_of_nodup_map hnodup hq hr hname]
    rfl

theorem mapOf_append {r : Record} (hnew : ∀ q ∈ es, q.name ≠ r.name) :
    mapOf (es ++ [r]) = Function.update (mapOf es) r.name (some r.inode) := by
  funext name
  by_cases hname : name = r.name
  · subst hname
    have hnone : es.find? (fun q => decide (q.name = r.name)) = none :=
      List.find?_eq_none.mpr fun q hq => by simpa using hnew q hq
    rw [Function.update_self, mapOf, List.find?_append, hnone]
    simp
  · rw [Function.update_of_ne hname, mapOf, List.find?_append, List.find?_singleton,
      if_neg (by simpa using Ne.symm hname), Option.or_none]
    rfl

theorem Holds.looks (h : Holds base s es) : Looks s (mapOf es) := by
  intro r
  rcases h.listing.findDirEntry r with ⟨k, hk, hname, hfind⟩ | ⟨hnone, hfind⟩
  · have hmap : mapOf es r.name = some es[k].inode := by
      rw [← hname]
      exact mapOf_of_mem h.nodup (List.getElem_mem hk)
    refine ⟨_, _, hfind, ?_⟩
    rw [hmap]
    exact ⟨Int.natCast_nonneg _, rfl⟩
  · refine ⟨_, _, hfind, ?_⟩
    rw [mapOf_eq_none.mpr hnone]

theorem Holds.add_bound (h : Holds base s es) {r : Record} (hbound : mapOf es r.name ≠ none)
    (ptrs : Pointers) : addDirEntry s.disk s.dir r.entry ptrs = .ok (-1, s.disk, s.dir) := by
  rcases h.listing.findDirEntry r with ⟨k, hk, -, hfind⟩ | ⟨hnone, -⟩
  · have hpos : ((32 * k : Nat) : Int) ≥ 0 := Int.natCast_nonneg _
    rw [addDirEntry, hfind, ok_bind]
    exact if_pos hpos
  · exact absurd (mapOf_eq_none.mpr hnone) hbound

theorem Holds.adds (h : Holds base s es) (hroom : es.length < 224) : Adds s (mapOf es) := by
  intro r ptrs
  refine ⟨fun hbound => h.add_bound hbound ptrs, fun hnone => ?_⟩
  have hnew := mapOf_eq_none.mp hnone
  rcases h.add_new hroom hnew ptrs with ⟨disk, dir, hadd, hholds⟩ | hfull
  · exact .inl ⟨disk, dir, hadd, mapOf_append hnew ▸ hholds.looks⟩
  · exact .inr hfull

/-- One _add_dir_entry that returns adds its record, or changes nothing. -/
theorem Holds.step (h : Holds base s es) (hroom : es.length < 224) {a : Add} (st : Step s a s') :
    ∃ es', Holds base s' es' ∧ es'.length ≤ es.length + 1 ∧
      mapOf es' = (mapOf es).add a.record := by
  by_cases hnone : mapOf es a.record.name = none
  · have hnew := mapOf_eq_none.mp hnone
    rcases h.add_new hroom hnew a.ptrs with ⟨disk, dir, hadd, hholds⟩ | ⟨-, herror⟩
    · obtain ⟨-, rfl, rfl⟩ : _ ∧ disk = s'.disk ∧ dir = s'.dir := by
        simpa using hadd.symm.trans st
      refine ⟨_, hholds, by simp, ?_⟩
      rw [mapOf_append hnew, NameMap.add, if_pos hnone]
    · rw [Step, herror] at st
      cases st
  · obtain ⟨-, hdisk, hdir⟩ : _ ∧ s.disk = s'.disk ∧ s.dir = s'.dir := by
      simpa using (h.add_bound hnone a.ptrs).symm.trans st
    obtain rfl : s = s' := by
      cases s
      cases s'
      simp only at hdisk hdir
      rw [hdisk, hdir]
    refine ⟨es, h, Nat.le_succ _, ?_⟩
    rw [NameMap.add, if_neg hnone]

theorem Holds.run (h : Holds base s es) {tr : List (Add × DirState)} (hrun : Exec Step s tr)
    (hroom : es.length + tr.length ≤ 224) : ∃ es', Holds base (last s tr) es' ∧
      es'.length ≤ es.length + tr.length ∧
      mapOf es' = tr.foldl (fun m e => m.add e.1.record) (mapOf es) := by
  induction hrun generalizing es with
  | nil s => exact ⟨es, h, le_rfl, rfl⟩
  | @cons s s' a tr st _ ih =>
    rw [List.length_cons] at hroom
    obtain ⟨es₁, h₁, hlen₁, hmap₁⟩ := h.step (by omega) st
    obtain ⟨es₂, h₂, hlen₂, hmap₂⟩ := ih h₁ (by omega)
    refine ⟨es₂, h₂, ?_, ?_⟩
    · rw [List.length_cons]
      omega
    · rw [hmap₂, hmap₁]
      rfl

theorem EmptyDir.holds (h : EmptyDir s) : Holds (ZoneBit s.disk) s [] := by
  have hnone : zonesOf s.dir.iSize = 0 := by
    rw [h.size, zonesOf_eq le_rfl (by decide)]
    rfl
  refine ⟨h.metadata, h.record, h.number, h.size, by decide, ?_, fun i hi => by simp at hi,
    List.nodup_nil⟩
  rw [hnone]
  refine ⟨le_rfl, by decide, fun k hk => ?_, fun k _ => h.zones k, fun k l hk => ?_, fun b hb => ?_⟩
  · omega
  · omega
  · constructor
    · exact .inl
    · rintro (hb | ⟨k, hk, -⟩)
      · exact hb
      · omega

end Map

/-- From an empty directory, after any run of up to 224 _add_dir_entry calls: lookups give the
map of the names added, no name is on the disk twice, and the next call does to the map what
it should. -/
theorem directory_is_map {s : DirState} (hempty : EmptyDir s) {tr : List (Add × DirState)}
    (hrun : Exec Step s tr) (hlen : tr.length ≤ 224) :
    Looks (last s tr) (bindings tr) ∧ (namesOf (last s tr)).Nodup ∧
      (tr.length < 224 → Adds (last s tr) (bindings tr)) := by
  have hroom : ([] : List Record).length + tr.length ≤ 224 := by simpa using hlen
  obtain ⟨es, hholds, hes, hmap⟩ := hempty.holds.run hrun hroom
  have hbindings : mapOf es = bindings tr := hmap
  rw [← hbindings]
  refine ⟨hholds.looks, hholds.nodup_names, fun hlt => hholds.adds ?_⟩
  simp only [List.length_nil, Nat.zero_add] at hes
  omega

/-- The root directory after mkfs. -/
theorem emptyDir_mkfs {disk disk' : Disk} {ptrs : Pointers} (h : mkfs disk ptrs = .ok disk') :
    EmptyDir ⟨disk', mkfsRoot⟩ := by
  obtain ⟨hinode, hzone⟩ := mkfs_ok h
  have hsmall : ∀ b < super.sDataStart, b < sectorBits := fun b hb => hb.trans (by decide)
  have hnumber : (1 : Nat) ≠ 0 ∧ 1 < sectorBits := by decide
  refine ⟨rfl, fun _ => rfl, ⟨hnumber.1, hnumber.2, (hinode 1 hnumber.2).mpr (by decide)⟩, ?_,
    fun b hb => (hzone b (hsmall b hb)).mpr hb⟩
  exact (hzone (inodeBlk 1) (by decide)).mpr (by decide)

theorem plainLen_lt : 32 < 2 ^ 16 := by decide

def record (name : CStr) (inode : Nat) (hname : (∀ c ∈ name, c ≠ 0) ∧ name ≠ [] ∧
    name.length < maxDentryLength) (hinode : inode ≠ 0 ∧ inode < 2 ^ 32) : Record :=
  ⟨name, hname.1, hname.2.1, hname.2.2, inode, hinode.1, hinode.2, 32, plainLen_lt, ftRegFile,
    by decide⟩

/-- "a" and "ab", one a prefix of the other. -/
def recordA : Record := record [97] 2 (by simp [maxDentryLength]) (by decide)

def recordAb : Record := record [97, 98] 3 (by simp [maxDentryLength]) (by decide)

theorem directory_is_map_prefix : ∃ s tr, EmptyDir s ∧ Exec Step s tr ∧ tr.length = 2 ∧
    Looks (last s tr) (bindings tr) ∧ (namesOf (last s tr)).Nodup ∧
      (tr.length < 224 → Adds (last s tr) (bindings tr)) := by
  have hrun : (match mkfs (fun _ => zeroBlock) fun _ => 0 with
      | .ok disk =>
        match addDirEntry disk mkfsRoot recordA.entry fun _ => 0 with
        | .ok (_, disk, dir) =>
          match addDirEntry disk dir recordAb.entry fun _ => 0 with
          | .ok _ => true
          | .error _ => false
        | .error _ => false
      | .error _ => false) = true := by decide +kernel
  split at hrun
  swap
  · cases hrun
  rename_i disk hmkfs
  split at hrun
  swap
  · cases hrun
  rename_i ret₁ disk₁ dir₁ hadd₁
  split at hrun
  swap
  · cases hrun
  rename_i r₂ hadd₂
  obtain ⟨ret₂, disk₂, dir₂⟩ := r₂
  have hempty := emptyDir_mkfs hmkfs
  have hexec : Exec Step ⟨disk, mkfsRoot⟩
      [(⟨recordA, fun _ => 0, ret₁⟩, ⟨disk₁, dir₁⟩), (⟨recordAb, fun _ => 0, ret₂⟩, ⟨disk₂, dir₂⟩)] :=
    .cons hadd₁ (.cons hadd₂ (.nil _))
  exact ⟨_, _, hempty, hexec, rfl, directory_is_map hempty hexec (Nat.le_of_ble_eq_true rfl)⟩

end RxdOs.Fs.Directory
