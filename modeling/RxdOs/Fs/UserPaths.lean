/- RxdOs/Fs/UserPaths
   source: fs/fs.c (sys_open, _opendir, get_dentry, create_dentry, _find_dir_entry)
   digest: Which user paths sys_open answers, over all runs of the file calls. -/

import RxdOs.Fs.Message
import RxdOs.Fs.NamedCache

set_option autoImplicit false
set_option relaxedAutoImplicit false

namespace RxdOs.Fs.UserPaths

open RxdOs.Base.Assert RxdOs.Base.Int32 RxdOs.Lib.Execution RxdOs.Fs.Bitmap RxdOs.Fs.Layout
  RxdOs.Fs.Zone RxdOs.Fs.ZoneMap RxdOs.Fs.FileBytes RxdOs.Fs.InodeCache RxdOs.Fs.InodeRecord
  RxdOs.Fs.InodeRegion RxdOs.Fs.InodeTable RxdOs.Fs.Name RxdOs.Fs.Dir RxdOs.Fs.Directory
  RxdOs.Fs.DentryCache RxdOs.Fs.Open RxdOs.Fs.CacheReach RxdOs.Fs.PathResolution
  RxdOs.Fs.RootDirectory RxdOs.Fs.WriteThrough RxdOs.Fs.NamedCache

open RxdOs.Fs.Message (Found Shown shown_of_short withPage_eq_ok)
open RxdOs.Libk.Printk (Screen)
open RxdOs.Mm.Memory (Mem Spare allocPage allocPage_spare)

/-! ## What is asked of a path -/

/-- The root directory has the name. -/
def InRoot (s : FsState) (name : CStr) : Prop :=
  padded name ∈ namesOf ⟨s.vol.disk, s.vol.inode .root⟩

/-- An empty file name is looked for in an empty directory only, unless the file is to be created;
any other one has at most 23 characters, and room where it is to be created. -/
def LastFits (s : FsState) (name : QStr) (flags : UInt32) : Prop :=
  if name.name = [] then oCreat flags = true ∨ (s.vol.inode .root).iSize = 0
  else name.len < maxDentryLength ∧
    (oCreat flags = true → InRoot s name.name ∨ (s.vol.inode .root).iSize < maxSize)

/-- The paths sys_open is fit for: absolute ones, while root_dentry is linked to its inode.  A path
with a directory in it is short, and does not leave root_dentry without references. -/
def Fits (s : FsState) (path : Pathname) (flags : UInt32) : Prop :=
  charAt path.chars 0 = slash ∧ (s.dentry .root).dInode = some .root ∧
    if moreDirs (pathFirst (rest path)) then
      (rest path).length ≤ maxDentryLength ∧ (s.dentry .root).dRefcnt ≠ 2
    else LastFits s (lastName path) flags

/-- Given its page, sys_open returns a descriptor or -1; without O_CREAT it returns a descriptor
only for a name that the root directory has. -/
def Answered (s : FsState) (path : Pathname) (pathname : CStr) (flags : UInt32) (env : Env) :
    Prop :=
  ∃ r s', sysOpen s pathname flags env = .ok (r, s') ∧ (oCreat flags = false → r ≠ none →
    (lastName path).name ≠ [] ∧ InRoot s (lastName path).name)

/-- A free inode, a free block, and slab objects that are not in use. -/
structure Supplied (s : FsState) (env : Env) : Prop where
  inode : ∃ n < tableSize, ¬InodeBit s.vol.disk n
  block : ∃ b < sectorBits, ¬ZoneBit s.vol.disk b
  fresh : Fresh s env

variable {s s' : FsState} {es es' : List Record} {env : Env} {path : Pathname} {flags : UInt32}
  {c : CStr} {p : InodePtr} {r : Option DentryPtr}

/-! ## Shapes of paths -/

section Shapes

theorem charAt_strcspn (str : CStr) :
    charAt str (strcspn str [slash]) = slash ∨ charAt str (strcspn str [slash]) = 0 := by
  induction str with
  | nil => exact .inr rfl
  | cons x str ih =>
    by_cases hx : x ≠ 0 ∧ x ∉ [slash]
    · rw [strcspn, List.takeWhile_cons_of_pos (by simpa using hx)]
      exact ih
    · rw [strcspn, List.takeWhile_cons_of_neg (by simpa using hx)]
      show x = slash ∨ x = 0
      simp only [List.mem_singleton, not_and_or, not_not] at hx
      exact hx.symm

/-- A component that is not the last one is compared with a slash. -/
theorem slash_in_first {str : CStr} (hnul : ∀ x ∈ str, x ≠ 0)
    (hmore : charAt str (pathFirst str).len ≠ 0) :
    (pathFirst str).len < str.length ∧ ∃ i ≤ (pathFirst str).len, charAt str i = slash := by
  have hlt : (pathFirst str).len < str.length := by
    by_contra hle
    exact hmore (charAt_of_le (not_lt.mp hle))
  have hspan : strcspn str [slash] ≤ (pathFirst str).len := by
    simp only [pathFirst]
    split_ifs with hzero
    · omega
    · exact le_rfl
  refine ⟨hlt, strcspn str [slash], hspan, (charAt_strcspn str).resolve_right ?_⟩
  exact charAt_ne_zero hnul (hspan.trans_lt hlt)

/-- A rest that is one component has no slash; one that starts with a slash is that slash. -/
theorem rest_cases {str : CStr} (hnul : ∀ x ∈ str, x ≠ 0)
    (hend : charAt str (pathFirst str).len = 0) : IsName str ∨ str = [slash] := by
  have hle : str.length ≤ (pathFirst str).len := by
    by_contra hlt
    exact charAt_ne_zero hnul (not_le.mp hlt) hend
  by_cases hzero : strcspn str [slash] = 0
  · simp only [pathFirst, if_pos hzero] at hle
    have hhead := charAt_strcspn str
    rw [hzero] at hhead
    cases str with
    | nil => exact .inl fun x hx => absurd hx List.not_mem_nil
    | cons x str =>
      obtain rfl : str = [] := List.length_eq_zero_iff.mp (by simpa using hle)
      obtain rfl : x = slash := hhead.resolve_right (hnul x (List.mem_cons_self ..))
      exact .inr rfl
  · have hwhole : (str.takeWhile fun x => x ≠ 0 ∧ x ∉ [slash]) = str := by
      refine (List.takeWhile_prefix _).eq_of_length_le ?_
      simp only [pathFirst, if_neg hzero] at hle
      exact hle
    refine .inl fun x hx => ?_
    rw [← hwhole] at hx
    have hchar := List.mem_takeWhile_imp hx
    obtain ⟨hne, hslash⟩ := of_decide_eq_true hchar
    exact ⟨hne, fun heq => hslash (List.mem_singleton.mpr heq)⟩

theorem exists_cons_of_slash (hslash : charAt path.chars 0 = slash) :
    ∃ str, path.chars = slash :: str := by
  cases hchars : path.chars with
  | nil =>
    rw [hchars, charAt_nil] at hslash
    cases hslash
  | cons x str =>
    rw [hchars] at hslash
    exact ⟨str, congrArg (· :: str) hslash⟩

/-- Behind root_dentry such a path has one name, which may be empty. -/
theorem lastName_isName (hslash : charAt path.chars 0 = slash)
    (hone : moreDirs (pathFirst (rest path)) = false) :
    ∃ c, IsName c ∧ lastName path = ⟨c.length, c⟩ := by
  obtain ⟨str, hpath⟩ := exists_cons_of_slash hslash
  have hrest : rest path = str := rest_rootPath hpath
  rw [hrest] at hone
  obtain hname | rfl := rest_cases (hrest ▸ rest_noNul path) (not_not.mp (of_decide_eq_false hone))
  · exact ⟨str, hname, lastName_rootPath hname hpath⟩
  · refine ⟨[], fun x hx => absurd hx List.not_mem_nil, ?_⟩
    rw [lastName, hpath]
    rfl

theorem opendir_last (s : FsState) (env : Env) (hslash : charAt path.chars 0 = slash)
    (hone : moreDirs (pathFirst (rest path)) = false) :
    opendir s path env = .ok (some .root, addRef s .root 1) := by
  rw [opendir, walkPath, assert_pos hslash]
  simp only [ok_bind]
  rw [show pathFirst (path.chars.drop 1) = pathFirst (rest path) from rfl, walk, hone]
  rfl

/-- A path that fits is short. -/
theorem Fits.length_le (h : Fits s path flags) : path.chars.length ≤ maxDentryLength + 1 := by
  obtain ⟨hslash, -, hfits⟩ := h
  obtain ⟨str, hpath⟩ := exists_cons_of_slash hslash
  have hrest : rest path = str := rest_rootPath hpath
  rw [hpath, List.length_cons]
  split_ifs at hfits with hdirs
  · rw [hrest] at hfits
    exact Nat.succ_le_succ hfits.1
  · have hone : moreDirs (pathFirst (rest path)) = false := Bool.eq_false_iff.mpr hdirs
    rw [hrest] at hone
    obtain hname | rfl := rest_cases (hrest ▸ rest_noNul path) (not_not.mp (of_decide_eq_false hone))
    · have hlast : lastName path = ⟨str.length, str⟩ := lastName_rootPath hname hpath
      rw [hlast, LastFits] at hfits
      split_ifs at hfits with hnil
      · have hnil : str = [] := hnil
        rw [hnil]
        decide
      · exact Nat.succ_le_succ hfits.1.le
    · decide

/-- So the lines in which sys_open prints the path, or a part of it, are shown. -/
theorem Fits.shown (h : Fits s path flags) {part : CStr} (hpart : part.length ≤ path.chars.length)
    {head tail : List UInt8} (hline : head.length + tail.length ≤ 1024) (scr : Screen) :
    Shown (head ++ part ++ tail) scr := by
  have hlen := h.length_le
  have hmax : maxDentryLength = 24 := rfl
  apply shown_of_short
  rw [List.length_append, List.length_append]
  omega

end Shapes

/-! ## Lookups return -/

section Lookups

/-- strncmp tells the name from every entry; an empty name is like all of them. -/
def Unmatched (es : List Record) (c : CStr) : Prop :=
  ∀ q ∈ es, strncmp c q.entry.name c.length ≠ 0

theorem unmatched_nil : Unmatched es [] ↔ es = [] := by
  constructor
  · intro hnone
    by_contra hne
    obtain ⟨q, hq⟩ := List.exists_mem_of_ne_nil es hne
    exact hnone q hq rfl
  · rintro rfl q hq
    exact absurd hq List.not_mem_nil

theorem unmatched_iff (hne : c ≠ []) (hnul : ∀ x ∈ c, x ≠ 0) :
    Unmatched es c ↔ ∀ q ∈ es, q.name ≠ c := by
  constructor
  · intro hnone q hq heq
    exact hnone q hq ((strncmp_name hne hnul q).mpr heq.symm)
  · intro hnone q hq hcmp
    exact hnone q hq ((strncmp_name hne hnul q).mp hcmp).symm

theorem inRoot_iff (h : Indexed s es) (hnul : ∀ x ∈ c, x ≠ 0) :
    InRoot s c ↔ ∃ q ∈ es, q.name = c := by
  have hnames := (h.entries.toNamed.holds h.cached.through).namesOf
  rw [InRoot, hnames, List.mem_map]
  constructor
  · rintro ⟨q, hq, heq⟩
    refine ⟨q, hq, eq_of_charAt q.noNul hnul fun i _ => ?_⟩
    rw [← charAt_padded, heq, charAt_padded]
  · rintro ⟨q, hq, rfl⟩
    exact ⟨q, hq, rfl⟩

theorem root_size (h : Indexed s es) : (s.vol.inode .root).iSize = 32 * es.length :=
  h.entries.listing.size

theorem allocated (h : Indexed s es) {q : Record} (hq : q ∈ es) : Allocated s.vol.disk q.inode := by
  have hused := (h.entries.linked q hq).2.1
  exact ⟨hused.1, hused.2.1, hused.2.2, h.cached.through.table.number _ hused⟩

/-- A name that is told from every entry is not found. -/
theorem getDentry_missing (env : Env) (h : Indexed s es)
    (hroot : (s.dentry .root).dInode = some .root)
    (hname : IsName c) (hshort : c.length < maxDentryLength) (hnone : Unmatched es c) :
    getDentry s .root ⟨c.length, c⟩ env = .ok (none, s) := by
  have hmiss : findDentry s .root ⟨c.length, c⟩ = none := by
    cases hfind : findDentry s .root ⟨c.length, c⟩ with
    | none => rfl
    | some d =>
      obtain ⟨-, q, hq, rfl, -⟩ := h.findDentry_some hname hfind
      exact absurd ((strncmp_name q.nonempty q.noNul q).mpr rfl) (hnone q hq)
  have htarget := @lookupEntry_of_le env c hname.noNul c.length hshort.le
  obtain ⟨k, hk, hcmp, -⟩ | ⟨-, hentry⟩ :=
    h.entries.listing.search ⟨env.deInode, 0, c.length, 0, c⟩
  · exact absurd hcmp (hnone _ (List.getElem_mem hk))
  · exact getDentry_absent hroot hmiss hshort htarget hentry

/-- Any other name is found, in the cache or on the disk. -/
theorem getDentry_found (h : Indexed s es) (hroot : (s.dentry .root).dInode = some .root)
    (hfresh : Fresh s env) (hname : IsName c) (hshort : c.length < maxDentryLength)
    (hsome : ¬Unmatched es c) : ∃ d s', getDentry s .root ⟨c.length, c⟩ env = .ok (some d, s') := by
  cases hfind : findDentry s .root ⟨c.length, c⟩ with
  | some d => exact ⟨d, _, getDentry_hit hroot hfind⟩
  | none =>
    have htarget := @lookupEntry_of_le env c hname.noNul c.length hshort.le
    obtain ⟨k, hk, -, hentry⟩ | ⟨hnone, -⟩ :=
      h.entries.listing.search ⟨env.deInode, 0, c.length, 0, c⟩
    · obtain ⟨p, vol, hinode, -⟩ := getInode_total (allocated h (List.getElem_mem hk)) hfresh.inode
      obtain ⟨dName, hcopy, -⟩ := copyName_whole hname.noNul
      exact ⟨_, _, getDentry_present hroot hfind hshort htarget hentry (Int.natCast_nonneg _)
        hinode hfresh.dentry hcopy⟩
    · exact absurd hnone hsome

/-- get_dentry finds no component with a slash behind it. -/
theorem getDentry_dir (h : Indexed s es) (hroot : (s.dentry .root).dInode = some .root)
    (hmore : moreDirs (pathFirst (rest path)) = true)
    (hle : (rest path).length ≤ maxDentryLength) :
    getDentry s .root (pathFirst (rest path)) env = .ok (none, s) := by
  have hnul := rest_noNul path
  have hpos := pathFirst_len_pos (rest path)
  obtain ⟨hlt, i, hi, hslash⟩ := slash_in_first hnul (of_decide_eq_true hmore)
  have hmiss : findDentry s .root (pathFirst (rest path)) = none := by
    cases hfind : findDentry s .root (pathFirst (rest path)) with
    | none => rfl
    | some d =>
      obtain ⟨-, hcmp, -, -⟩ := DentryCache.findDentry_some hfind
      have hend := strlen_le_of_qstrcmp hcmp (s.dentry d).dName.ends hpos
      change strlen (rest path) ≤ _ at hend
      rw [strlen_of_noNul hnul] at hend
      omega
  have htarget := @lookupEntry_of_le env _ hnul (pathFirst (rest path)).len hle
  obtain ⟨k, hk, hcmp, -⟩ | ⟨-, hentry⟩ :=
    h.entries.listing.search ⟨env.deInode, 0, (pathFirst (rest path)).len, 0, rest path⟩
  · exfalso
    have hmem := List.getElem_mem hk
    change strncmp (rest path) (padded es[k].name) _ = 0 at hcmp
    rw [strncmp, if_neg hpos,
      strncmpLoop_eq_zero fun j hj => charAt_ne_zero hnul (hj.trans hlt)] at hcmp
    have hchar := hcmp i hi
    rw [charAt_padded, hslash] at hchar
    by_cases hin : i < es[k].name.length
    · rw [charAt_of_lt hin] at hchar
      exact h.entries.plain _ hmem (hchar ▸ List.getElem_mem hin)
    · rw [charAt_of_le (not_lt.mp hin)] at hchar
      exact absurd hchar (by decide)
  · exact getDentry_absent hroot hmiss (hlt.trans_le hle) htarget hentry

end Lookups

/-! ## New files -/

section NewFiles

theorem newInodeOf_total (h : Indexed s es) (hsupply : Supplied s env) :
    ∃ p s', newInodeOf s 123 env = .ok (p, s') := by
  obtain ⟨n, hn, hfree⟩ := hsupply.inode
  have hlt : n < sectorBits := hn.trans (by decide)
  obtain ⟨p, vol, hcreate⟩ :=
    h.entries.createInode_total hlt hfree hsupply.fresh.inode 123 (env.ptrs 0)
  simp only [newInodeOf, hcreate, ok_bind, pure_eq_ok]
  exact ⟨p, _, rfl⟩

/-- create_inode takes no block. -/
theorem newInodeOf_block (hnew : newInodeOf s 123 env = .ok (p, s')) {b : Nat}
    (hb : b < sectorBits) (hfree : ¬ZoneBit s.vol.disk b) : ¬ZoneBit s'.vol.disk b := by
  obtain ⟨vol, hcreate, rfl⟩ := newInodeOf_ok hnew
  obtain ⟨-, -, n, disk, halloc, -, hrec, -⟩ := createInode_ok hcreate
  obtain ⟨-, -, -, -, hother⟩ := allocInodeNr_ok halloc
  have hmap : vol.disk 3 = s.vol.disk 3 :=
    (writeInode_below hrec (by decide)).trans (hother 3 (by decide))
  show ¬ZoneBit vol.disk b
  rwa [zoneBit_congr hmap hb]

theorem countLink_total (env : Env) (h : Used s.vol.disk (s.vol.inode p).iInum) :
    ∃ s', countLink s p env = .ok s' := by
  obtain ⟨hne, hlt, hbit⟩ := h
  obtain ⟨disk, hrec⟩ := @writeInode_of_bit s.vol.disk { s.vol.inode p with
    iNlink := wrapShort ((s.vol.inode p).iNlink + 1) } (env.ptrs 2) hne hlt hbit
  simp only [countLink, hrec, ok_bind, pure_eq_ok]
  exact ⟨_, rfl⟩

/-- create_dentry of a new name, where the root directory has room for it. -/
theorem createDentry_total (h : Indexed s es) (hp : p ∈ s.vol.inodeList)
    (hroot : (s.dentry .root).dInode = some .root) (hname : IsName c)
    (hshort : c.length < maxDentryLength) (hnone : Unmatched es c) (hroom : es.length < 224)
    (hblock : ∃ b < sectorBits, ¬ZoneBit s.vol.disk b)
    (hfresh : .obj (env.dentryAt s.dentryList) ∉ s.dentryList) :
    ∃ d s', createDentry s .root ⟨c.length, c⟩ p env = .ok (some d, s') := by
  have hthrough := h.cached.through
  have hmiss := getDentry_missing env h hroot hname hshort hnone
  let target : DirEntry := ⟨(s.vol.inode p).iInum, 32, c.length, ftRegFile, c⟩
  have hother : ∀ q ∈ es, strncmp target.name q.entry.name target.nameLen ≠ 0 := hnone
  obtain ⟨⟨ret, disk, dir⟩, hadd⟩ :=
    h.entries.toNamed.add_total hthrough hroom hother hblock (env.ptrs 1)
  have hcopy : strncpy c maxDentryLength = .ok c := by
    have hle : strlen c ≤ maxDentryLength := by
      rw [strlen_of_noNul hname.noNul]
      exact hshort.le
    rw [strncpy, access_pos hle, ok_bind, takeWhile_noNul hname.noNul]
    rfl
  obtain ⟨dName, hcopied, -⟩ := copyName_whole hname.noNul
  -- the record of the new file can be written
  have hv : Through { s.vol.setInode .root dir with disk := disk } :=
    hthrough.addDirEntry hthrough.root.1 hadd
  let s₁ := addDentry { s with vol := { s.vol.setInode .root dir with disk := disk } }
    (.obj (env.dentryAt s.dentryList)) .root dName p
  have hused : Used s₁.vol.disk (s₁.vol.inode p).iInum := by
    rw [addDentry_inode]
    exact hv.used p hp
  obtain ⟨s', hcount⟩ := countLink_total env hused
  refine ⟨.obj (env.dentryAt s.dentryList), s', ?_⟩
  simp only [createDentry, hmiss, ok_bind, Option.isSome_none, Bool.false_eq_true, if_false, hroot,
    deref, pure_eq_ok, assert_pos hshort, hcopy, show addDirEntry s.vol.disk (s.vol.inode .root)
      ⟨(s.vol.inode p).iInum, 32, c.length, ftRegFile, c⟩ (env.ptrs 1) = _ from hadd, allocDentry,
    access_pos hfresh, hcopied]
  rw [hcount]
  rfl

end NewFiles

/-! ## sys_open returns -/

section Answers

/-- The last part of sys_open returns for a short name, where there is room for a new one. -/
theorem openLast_total (h : Indexed s es) (hroot : (s.dentry .root).dInode = some .root)
    (hsupply : Supplied s env) (hname : IsName c) (hshort : c.length < maxDentryLength)
    (hroom : oCreat flags = true → Unmatched es c → es.length < 224) :
    ∃ r s', openLast s .root ⟨c.length, c⟩ flags env = .ok (r, s') ∧
      (oCreat flags = false → r ≠ none → ¬Unmatched es c) := by
  by_cases hnone : Unmatched es c
  swap
  · obtain ⟨d, s', hget⟩ := getDentry_found h hroot hsupply.fresh hname hshort hnone
    refine ⟨some d, s', ?_, fun _ _ => hnone⟩
    simp only [openLast, hget, ok_bind, pure_eq_ok]
  have hmiss := getDentry_missing env h hroot hname hshort hnone
  by_cases hcreat : oCreat flags = true
  · obtain ⟨p, s₁, hnew⟩ := newInodeOf_total h hsupply
    obtain ⟨h₁, hfile⟩ := h.newInodeOf hsupply.inode hnew
    obtain ⟨b, hb, hfree⟩ := hsupply.block
    have hblock := newInodeOf_block hnew hb hfree
    obtain ⟨vol, -, rfl⟩ := newInodeOf_ok hnew
    obtain ⟨d, s', hcreate⟩ := createDentry_total h₁ hfile.mem hroot hname hshort
      hnone (hroom hcreat hnone) ⟨b, hb, hblock⟩ hsupply.fresh.dentry
    refine ⟨some d, s', ?_, fun hno => ?_⟩
    · simp only [openLast, hmiss, ok_bind, if_pos hcreat, hnew, hcreate, deref, pure_eq_ok]
    · rw [hcreat] at hno
      cases hno
  · refine ⟨none, s, ?_, fun _ hr => absurd rfl hr⟩
    simp only [openLast, hmiss, ok_bind, if_neg hcreat, pure_eq_ok]

/-- The file name of a path that fits is looked up, and perhaps created. -/
theorem openLast_answers (h : Indexed s es) (hroot : (s.dentry .root).dInode = some .root)
    (hsupply : Supplied s env) (hname : IsName c) (hfits : LastFits s ⟨c.length, c⟩ flags) :
    ∃ r s', openLast s .root ⟨c.length, c⟩ flags env = .ok (r, s') ∧
      (oCreat flags = false → r ≠ none → c ≠ [] ∧ InRoot s c) := by
  have hsize := root_size h
  by_cases hne : c = []
  · subst hne
    rw [LastFits, if_pos rfl] at hfits
    have hroom : oCreat flags = true → Unmatched es [] → es.length < 224 := by
      intro _ hnone
      rw [unmatched_nil.mp hnone]
      decide
    obtain ⟨r, s', hopen, hmatch⟩ := openLast_total h hroot hsupply hname (by decide) hroom
    refine ⟨r, s', hopen, fun hcreat hr => absurd (unmatched_nil.mpr ?_) (hmatch hcreat hr)⟩
    rw [hcreat] at hfits
    have hzero := hfits.resolve_left Bool.false_ne_true
    exact List.length_eq_zero_iff.mp (by omega)
  · rw [LastFits, if_neg hne] at hfits
    obtain ⟨hshort, hspace⟩ := hfits
    have hroom : oCreat flags = true → Unmatched es c → es.length < 224 := by
      intro hcreat hnone
      obtain hin | hlt := hspace hcreat
      · obtain ⟨q, hq, heq⟩ := (inRoot_iff h hname.noNul).mp hin
        exact absurd heq ((unmatched_iff hne hname.noNul).mp hnone q hq)
      · simp only [maxSize] at hlt
        omega
    obtain ⟨r, s', hopen, hmatch⟩ := openLast_total h hroot hsupply hname hshort hroom
    refine ⟨r, s', hopen, fun hcreat hr => ⟨hne, ?_⟩⟩
    by_contra hnot
    refine hmatch hcreat hr ((unmatched_iff hne hname.noNul).mpr fun q hq heq => hnot ?_)
    exact (inRoot_iff h hname.noNul).mpr ⟨q, hq, heq⟩

/-- The root_dentry that a walk has opened can be closed unless that was its second reference. -/
theorem close_opened_iff (env : Env) (h : Indexed s es)
    (hroot : (s.dentry .root).dInode = some .root) :
    (∃ s', close (addRef s .root 1) .root env = .ok s') ↔ (s.dentry .root).dRefcnt ≠ 2 := by
  have hlinked : (s.dentry .root).dInode ≠ none := hroot ▸ Option.some_ne_none _
  have hroot' : ((addRef s .root 1).dentry .root).dInode = some .root := by
    rw [addRef_self]
    exact hroot
  have hparent : ((addRef s .root 1).dentry .root).dParent = some .root := by
    rw [addRef_self]
    exact h.cached.rooted.tied hlinked
  have hrefs : ((addRef s .root 1).dentry .root).dRefcnt = (s.dentry .root).dRefcnt + 1 := by
    rw [addRef_self]
  have hpos := h.tidy.counted hlinked
  rw [close_root_iff hparent hroot' (by omega), hrefs]
  omega

/-- The directory of a nested path is not found, and root_dentry is closed. -/
theorem opendir_dir (env : Env) (h : Indexed s es) (hroot : (s.dentry .root).dInode = some .root)
    (hslash : charAt path.chars 0 = slash) (hmore : moreDirs (pathFirst (rest path)) = true)
    (hle : (rest path).length ≤ maxDentryLength) (hcount : (s.dentry .root).dRefcnt ≠ 2) :
    ∃ s', opendir s path env = .ok (none, s') := by
  have hroot' : ((addRef s .root 1).dentry .root).dInode = some .root := by
    rw [addRef_self]
    exact hroot
  obtain ⟨s', hdone⟩ := (close_opened_iff env h hroot).mpr hcount
  refine ⟨s', ?_⟩
  rw [opendir, walkPath, assert_pos hslash]
  exact walk_missing hmore (getDentry_dir (h.addRef .root) hroot' hmore hle) hdone

theorem withSlot_indexed (h : Indexed s es) {f : Nat} (hfresh : f ∉ s.files)
    (slot : Fin nrMaxOpen) : Indexed (withSlot s slot f flags) es :=
  h.same (h.cached.congr (h.cached.rooted.withSlot hfresh slot flags) rfl (fun _ => rfl) rfl)
    rfl rfl rfl

/-- A path that fits is answered, in a state where the caches and the root directory agree. -/
theorem answered_of_fits (h : Indexed s es) (hsupply : Supplied s env)
    (hfile : env.fileAt s.files ∉ s.files) {pathname : CStr}
    (hpath : kernelString pathname = .ok path) (hfits : Fits s path flags) :
    Answered s path pathname flags env := by
  obtain ⟨hslash, hroot, hfits⟩ := hfits
  cases hslot : freeSlot s with
  | none =>
    refine ⟨none, s, ?_, fun _ hr => absurd rfl hr⟩
    simp only [sysOpen, hpath, ok_bind, hslot, pure_eq_ok]
  | some slot =>
    let f := env.fileAt s.files
    let s₁ := withSlot s slot f flags
    have h₁ : Indexed s₁ es := withSlot_indexed h hfile slot
    have halloc : allocFile s slot flags env = .ok (f, s₁) := by
      simp only [allocFile, access_pos hfile, ok_bind, pure_eq_ok]
      rfl
    have hfree : ∀ s₂, SameFiles s₁ s₂ → ∃ s₃, freeFile s₂ f = .ok s₃ := by
      intro s₂ hsame
      have hmem : f ∈ s₂.files := by
        rw [hsame.files]
        exact List.mem_cons_self ..
      simp only [freeFile, access_pos hmem, ok_bind, pure_eq_ok]
      exact ⟨_, rfl⟩
    cases hmore : moreDirs (pathFirst (rest path)) with
    | true =>
      rw [if_pos hmore] at hfits
      obtain ⟨s₂, hdir⟩ := opendir_dir env h₁ hroot hslash hmore hfits.1 hfits.2
      obtain ⟨s₃, hdone⟩ := hfree s₂ (opendir_sameFiles hdir)
      refine ⟨none, s₃, ?_, fun _ hr => absurd rfl hr⟩
      simp only [sysOpen, hpath, ok_bind, hslot, halloc, hdir, hdone, pure_eq_ok]
    | false =>
      rw [if_neg (by rw [hmore]; exact Bool.false_ne_true)] at hfits
      obtain ⟨c, hname, hlast⟩ := lastName_isName hslash hmore
      have hdir := opendir_last s₁ env hslash hmore
      have hlinked : ((addRef s₁ .root 1).dentry .root).dInode = some .root := by
        rw [addRef_self]
        exact hroot
      have hsupply₂ : Supplied (addRef s₁ .root 1) env :=
        ⟨hsupply.inode, hsupply.block, hsupply.fresh.inode, hsupply.fresh.dentry⟩
      rw [hlast] at hfits
      obtain ⟨dentry, s₂, hopen, hnamed⟩ :=
        openLast_answers (h₁.addRef .root) hlinked hsupply₂ hname hfits
      rw [Answered, hlast]
      cases dentry with
      | none =>
        have hsame : SameFiles s₁ s₂ := (opendir_sameFiles hdir).trans (openLast_sameFiles hopen)
        obtain ⟨s₃, hdone⟩ := hfree s₂ hsame
        refine ⟨none, s₃, ?_, fun _ hr => absurd rfl hr⟩
        simp only [sysOpen, hpath, ok_bind, hslot, halloc, hdir, assert_pos trivial,
          assert_pos hlinked, hlast, hopen, hdone, pure_eq_ok]
      | some d =>
        refine ⟨some slot, s₂.setFile f { s₂.file f with fDentry := some d, fRefcnt := 1 }, ?_,
          fun hcreat _ => hnamed hcreat (Option.some_ne_none d)⟩
        simp only [sysOpen, hpath, ok_bind, hslot, halloc, hdir, assert_pos trivial,
          assert_pos hlinked, hlast, hopen, pure_eq_ok]

/-- sys_open looks a file name up only where it fits. -/
theorem lastFits_of_openLast (h : Indexed s es) (hfree : ∃ n < tableSize, ¬InodeBit s.vol.disk n)
    (hname : IsName c) (hopen : openLast s .root ⟨c.length, c⟩ flags env = .ok (r, s'))
    (hnamed : oCreat flags = false → r ≠ none → c ≠ []) : LastFits s ⟨c.length, c⟩ flags := by
  have hsize := root_size h
  rw [LastFits]
  split_ifs with hne
  · subst hne
    by_cases hcreat : oCreat flags = true
    · exact .inl hcreat
    right
    have hno : oCreat flags = false := Bool.eq_false_iff.mpr hcreat
    obtain ⟨d, rfl, -⟩ | ⟨hget, -⟩ := openLast_ok hopen
    · exact absurd rfl (hnamed hno (Option.some_ne_none d))
    obtain ⟨-, pos, inum, hlook, hneg⟩ := getDentry_misses h.cached hget
    obtain ⟨-, -, de, hfind, -⟩ := lookupDisk_ok hlook
    obtain ⟨k, hk, -, hsearch⟩ | ⟨hnone, -⟩ :=
      h.entries.listing.search ⟨env.deInode, 0, 0, 0, []⟩
    · obtain ⟨rfl, -⟩ := Prod.mk.inj (Except.ok.inj (hfind.symm.trans hsearch))
      omega
    · have hnil : es = [] := unmatched_nil.mp hnone
      rw [hsize, hnil]
      rfl
  · obtain ⟨d, -, hget⟩ | ⟨hget, hrest⟩ := openLast_ok hopen
    · obtain ⟨-, q, hq, rfl, -⟩ := h.getDentry_some hname hne hget
      exact ⟨q.short, fun _ => .inl ((inRoot_iff h q.noNul).mpr ⟨q, hq, rfl⟩)⟩
    obtain ⟨-, pos, inum, hlook, -⟩ := getDentry_misses h.cached hget
    obtain ⟨hshort, -⟩ := lookupDisk_ok hlook
    refine ⟨hshort, fun hcreat => .inr ?_⟩
    obtain ⟨hno, -⟩ | ⟨-, d, p, s₁, -, hnew, hcreate⟩ := hrest
    · rw [hcreat] at hno
      cases hno
    obtain ⟨h₁, hfile⟩ := h.newInodeOf hfree hnew
    obtain ⟨-, e, -, h₂⟩ := h₁.createDentry hfile ⟨hne, hshort, hname⟩ hcreate
    have hroom := h₂.entries.listing.room
    rw [List.length_append, List.length_singleton] at hroom
    rw [hsize, maxSize]
    omega

/-- Where a descriptor is free, only paths that fit are answered. -/
theorem fits_of_answered (h : Indexed s es) (hfree : ∃ n < tableSize, ¬InodeBit s.vol.disk n)
    (hslot : freeSlot s ≠ none) {pathname : CStr} (hpath : kernelString pathname = .ok path)
    (hans : Answered s path pathname flags env) : Fits s path flags := by
  obtain ⟨r, s', hopen, hnamed⟩ := hans
  obtain ⟨path', hpath', ⟨hnone, -⟩ | ⟨slot, f, s₁, -, halloc, hcases⟩⟩ := sysOpen_ok hopen
  · exact absurd hnone hslot
  obtain rfl : path = path' := Except.ok.inj (hpath.symm.trans hpath')
  obtain ⟨-, hfresh, rfl⟩ := allocFile_ok halloc
  have h₁ : Indexed (withSlot s slot f flags) es := withSlot_indexed h hfresh slot
  obtain ⟨s₂, hdir, -⟩ | ⟨s₂, s₃, dentry, hdir, hroot, hlast, hend⟩ := hcases
  · obtain ⟨hslash, ⟨-, hr, -⟩ | ⟨hmore, -, hget, hclose⟩⟩ := opendir_ok hdir
    · cases hr
    have h₂ := h₁.addRef .root
    obtain ⟨-, pos, inum, hlook, -⟩ := getDentry_misses h₂.cached hget
    obtain ⟨-, hle, -⟩ := lookupDisk_ok hlook
    change strlen (rest path) ≤ _ at hle
    rw [strlen_of_noNul (rest_noNul path)] at hle
    obtain ⟨dir, hdir', -⟩ := getDentry_ok hget
    obtain rfl : dir = .root := h₂.cached.top dir hdir'
    rw [addRef_self] at hdir'
    refine ⟨hslash, hdir', ?_⟩
    rw [if_pos hmore]
    exact ⟨hle, (close_opened_iff env h₁ hdir').mp ⟨s₂, hclose⟩⟩
  · obtain ⟨hslash, ⟨hone, -, rfl⟩ | ⟨-, hr, -⟩⟩ := opendir_ok hdir
    swap
    · cases hr
    obtain ⟨c, hname, heq⟩ := lastName_isName hslash hone
    rw [heq] at hlast hnamed
    have hne : oCreat flags = false → dentry ≠ none → c ≠ [] := by
      intro hcreat hd
      obtain ⟨hnone, -⟩ | ⟨d, -, hr, -⟩ := hend
      · exact absurd hnone hd
      · exact (hnamed hcreat (hr ▸ Option.some_ne_none slot)).1
    have hlinked := hroot
    rw [addRef_self] at hlinked
    refine ⟨hslash, hlinked, ?_⟩
    rw [if_neg (by rw [hone]; exact Bool.false_ne_true), heq]
    have hfits : LastFits (addRef (withSlot s slot f flags) .root 1) ⟨c.length, c⟩ flags :=
      lastFits_of_openLast (h₁.addRef .root) hfree hname hlast hne
    exact hfits

end Answers

/-! ## Runs -/

/-- The guard of a run: paths that fit, and no new file without a name. -/
def Fitting (s : FsState) : WriteThrough.Call → Prop
  | .open pathname flags _ => ∀ path, kernelString pathname = .ok path →
      Fits s path flags ∧ (moreDirs (pathFirst (rest path)) = false → oCreat flags = true →
        (lastName path).name ≠ [])
  | .close _ _ | .truncate _ _ _ | .read _ _ _ _ | .write _ _ _ _ _ | .lseek _ _ _ => True

/-- The caches are kept, their names are names of the root directory, and no open file is
root_dentry. -/
structure Inv (s : FsState) : Prop where
  kept : Kept s
  indexed : ∃ es, Indexed s es
  low : ∀ f ∈ s.files, (s.file f).fDentry ≠ some .root

section Calls

variable {pathname : CStr} {fd : Fin nrMaxOpen} {f : Nat} {d : DentryPtr}

/-- The open files still lead to dentries below root_dentry. -/
theorem Inv.of_files (h : Inv s) (hkept : Kept s') (hindexed : ∃ es, Indexed s' es)
    (hfiles : ∀ g ∈ s'.files, g ∈ s.files ∧ (s'.file g).fDentry = (s.file g).fDentry ∨
      ∃ d, d ≠ .root ∧ (s'.file g).fDentry = some d) : Inv s' := by
  refine ⟨hkept, hindexed, fun g hg hroot => ?_⟩
  obtain ⟨hold, hsame⟩ | ⟨d, hne, hnew⟩ := hfiles g hg
  · exact h.low g hold (hsame ▸ hroot)
  · rw [hnew] at hroot
    exact hne (Option.some.inj hroot)

theorem Inv.giveBack (h : Inv s) (hkept : Kept s') (hfresh : f ∉ s.files) {slot : Fin nrMaxOpen}
    {s₂ : FsState} (hindexed : ∃ es, Indexed s₂ es)
    (hfiles : SameFiles (withSlot s slot f flags) s₂) (hfree : freeFile s₂ f = .ok s') :
    Inv s' := by
  have hback := freed_files hfresh hfiles hfree
  obtain ⟨es, h₂⟩ := hindexed
  obtain ⟨-, rfl⟩ := freeFile_ok hfree
  exact h.of_files hkept ⟨es, h₂.same hkept.cached rfl rfl rfl⟩ fun g hg => .inl (hback g hg)

/-- The last part of sys_open leaves the names in order, for a file name that fits. -/
theorem openLast_indexed (h : Indexed s es) (hroot : (s.dentry .root).dInode = some .root)
    (hname : IsName c) (hfits : LastFits s ⟨c.length, c⟩ flags)
    (hnamed : oCreat flags = true → c ≠ [])
    (hspare : AliasLists.ReadsIn s .root ⟨c.length, c⟩ env →
      0 ≤ (s.vol.inode (AliasLists.nextInode s env)).iRefcnt)
    (hfree : oCreat flags = true → findDentry s .root ⟨c.length, c⟩ = none →
      (∃ pos inum, lookupDisk s .root ⟨c.length, c⟩ env = .ok (pos, inum) ∧ pos < 0) →
        ∃ n < tableSize, ¬InodeBit s.vol.disk n)
    (hlast : openLast s .root ⟨c.length, c⟩ flags env = .ok (r, s')) :
    (∃ es', Indexed s' es') ∧ ∀ d, r = some d → d ≠ .root := by
  by_cases hne : c = []
  · subst hne
    rw [LastFits, if_pos rfl] at hfits
    have hcreat : ¬oCreat flags = true := fun hc => hnamed hc rfl
    have hsize := hfits.resolve_left hcreat
    rw [root_size h] at hsize
    obtain rfl : es = [] := List.length_eq_zero_iff.mp (by omega)
    have hget := getDentry_missing env h hroot hname (by decide) (unmatched_nil.mpr rfl)
    simp only [openLast, hget, ok_bind, if_neg hcreat, pure_eq_ok, Except.ok.injEq,
      Prod.mk.injEq] at hlast
    obtain ⟨rfl, rfl⟩ := hlast
    refine ⟨⟨[], h⟩, fun d hd => ?_⟩
    cases hd
  · rw [LastFits, if_neg hne] at hfits
    exact h.openLast ⟨hne, hfits.1, hname⟩ hspare hfree hlast

theorem Inv.sysOpen (h : Inv s) {r : Option (Fin nrMaxOpen)}
    (hready : Ready s (.open pathname flags env)) (hfit : Fitting s (.open pathname flags env))
    (hopen : sysOpen s pathname flags env = .ok (r, s')) : Inv s' := by
  have hkept := h.kept.sysOpen hready hopen
  obtain ⟨es, hes⟩ := h.indexed
  obtain ⟨path, hpath, ⟨-, -, rfl⟩ | ⟨slot, f, s₁, -, halloc, hcases⟩⟩ := sysOpen_ok hopen
  · exact h
  obtain ⟨hspare, hfree⟩ := hready path hpath
  obtain ⟨⟨hslash, -, hfits⟩, hnamed⟩ := hfit path hpath
  obtain ⟨-, hfresh, rfl⟩ := allocFile_ok halloc
  have h₁ : Indexed (withSlot s slot f flags) es := withSlot_indexed hes hfresh slot
  obtain ⟨s₂, hdir, hback, -⟩ | ⟨s₂, s₃, dentry, hdir, hlinked, hlast, hend⟩ := hcases
  · exact h.giveBack hkept hfresh ⟨es, h₁.opendir hdir⟩ (opendir_sameFiles hdir) hback
  have hfiles := (opendir_sameFiles hdir).trans (openLast_sameFiles hlast)
  obtain ⟨-, ⟨hone, -, rfl⟩ | ⟨-, hr, -⟩⟩ := opendir_ok hdir
  swap
  · cases hr
  rw [if_neg (by rw [hone]; exact Bool.false_ne_true)] at hfits
  obtain ⟨c, hname, heq⟩ := lastName_isName hslash hone
  have hne' := hnamed hone
  rw [heq] at hfits hspare hfree hlast hne'
  obtain ⟨hindexed, hne⟩ := openLast_indexed (h₁.addRef .root) hlinked hname hfits hne' hspare
    (fun hc hnone hmiss => hfree hc ⟨hnone, hmiss⟩) hlast
  obtain ⟨-, hback, -⟩ | ⟨d, hd, -, rfl⟩ := hend
  · exact h.giveBack hkept hfresh hindexed hfiles hback
  · obtain ⟨es', h₃⟩ := hindexed
    refine h.of_files hkept ⟨es', h₃.same hkept.cached rfl rfl rfl⟩ fun g hg => ?_
    obtain ⟨-, hnew⟩ | hold := opened_files hfiles hg
    · exact .inr ⟨d, hne d hd, hnew⟩
    · exact .inl hold

theorem Inv.sysClose (h : Inv s) (hclose : sysClose s fd env = .ok s') : Inv s' := by
  have hkept := h.kept.sysClose hclose
  obtain ⟨es, hes⟩ := h.indexed
  obtain ⟨f, d, s₁, -, hd, hput, hfree⟩ := sysClose_ok hclose
  have hsame := close_sameFiles hput
  obtain ⟨hf, -⟩ := freeFile_ok hfree
  obtain ⟨p, hp⟩ := close_linked hput
  have h₁ : Indexed s₁ es := hes.close (h.kept.listed (hsame.files ▸ hf) hd hp) hput
  obtain ⟨-, rfl⟩ := freeFile_ok hfree
  refine h.of_files hkept ⟨es, h₁.same hkept.cached rfl rfl rfl⟩ fun g hg => .inl ⟨?_, ?_⟩
  · rw [← hsame.files]
    exact List.mem_of_mem_erase hg
  · rw [hsame.file]

/-- A sys_truncate that cuts no file only walks to it. -/
theorem sysTruncate_uncut (h : Kept s) {length ret : Int}
    (hready : Ready s (.truncate pathname length env))
    (hwhole : Whole s (.truncate pathname length env))
    (htrunc : sysTruncate s pathname length env = .ok (ret, s')) :
    ∃ path r, kernelString pathname = .ok path ∧ openPath s path env = .ok (r, s') := by
  obtain ⟨path, dentry, s₁, hpath, hopen, hcases⟩ := sysTruncate_ok htrunc
  refine ⟨path, dentry, hpath, ?_⟩
  obtain ⟨-, rfl⟩ | ⟨d, p, rfl, hp, ⟨-, rfl⟩ | ⟨hlt, -⟩⟩ := hcases
  · exact hopen
  · exact hopen
  · have hsize := h.cached.sizeAt_of_openPath (hready path hpath) hopen hp
    have hle := hwhole path _ hpath hsize
    omega

theorem Inv.sysTruncate (h : Inv s) {length ret : Int}
    (hready : Ready s (.truncate pathname length env))
    (hwhole : Whole s (.truncate pathname length env))
    (htrunc : sysTruncate s pathname length env = .ok (ret, s')) : Inv s' := by
  obtain ⟨es, hes⟩ := h.indexed
  obtain ⟨path, r, hpath, hopen⟩ := sysTruncate_uncut h.kept hready hwhole htrunc
  have hsame := openPath_sameFiles hopen
  refine h.of_files (h.kept.openPath (hready path hpath) hopen)
    ⟨es, hes.openPath (hready path hpath) hopen⟩ fun g hg => .inl ⟨?_, ?_⟩
  · rw [← hsame.files]
    exact hg
  · rw [hsame.file]

/-- Every round of the loop of sys_write leaves the root directory, and the number of the file. -/
theorem sysWriteLoop_entries {v : Volume} (h : Entries v es) (hv : Through v)
    (hp : p ∈ v.inodeList) (hne : p ≠ .root) {usr : Nat → UInt8} {ptrs : Pointers} {fuel : Nat}
    {t t' : FileIo.Writing} (hdisk : t.file.disk = v.disk) (hinode : t.file.inode = v.inode p)
    (hloop : FileIo.sysWriteLoop usr ptrs fuel t = .ok t') :
    Entries { v.setInode p t'.file.inode with disk := t'.file.disk } es ∧
      t'.file.inode.iInum = (v.inode p).iInum := by
  induction fuel generalizing v t with
  | zero => cases hloop
  | succ fuel ih =>
    rw [FileIo.sysWriteLoop] at hloop
    split_ifs at hloop
    · simp only [bind_eq_ok] at hloop
      obtain ⟨_, -, ⟨bytes, disk, inode⟩, hwrite, hloop⟩ := hloop
      rw [hdisk, hinode] at hwrite
      have hentries := h.write hv hp hne hwrite
      have hthrough := hv.write hp hwrite
      have hnum : inode.iInum = (v.inode p).iInum := (write_same hwrite).iInum
      split_ifs at hloop
      · have hself : (v.setInode p inode).inode p = inode := Function.update_self ..
        obtain ⟨hrest, hnum'⟩ := ih hentries hthrough hp rfl hself.symm hloop
        rw [setInode_twice] at hrest
        refine ⟨hrest, ?_⟩
        rw [hnum', hself, hnum]
      · simp only [pure_eq_ok, Except.ok.injEq] at hloop
        subst hloop
        exact ⟨hentries, hnum⟩
    · simp only [pure_eq_ok, Except.ok.injEq] at hloop
      subst hloop
      rw [hdisk, hinode]
      have hsame : { v.setInode p (v.inode p) with disk := v.disk } = v := by
        simp only [Volume.setInode, Function.update_eq_self]
      rw [hsame]
      exact ⟨h, rfl⟩

/-- A read or a write of a file leaves the names in order. -/
theorem Inv.putBack (h : Inv s) {o : FileIo.OpenFile} (hkept : Kept (putBack s f p o))
    (hentries : ∀ es, Entries s.vol es →
      Entries { s.vol.setInode p o.inode with disk := o.disk } es)
    (hnum : o.inode.iInum = (s.vol.inode p).iInum) : Inv (putBack s f p o) := by
  obtain ⟨es, hes⟩ := h.indexed
  have hnums : ∀ q, ((s.vol.setInode p o.inode).inode q).iInum = (s.vol.inode q).iInum := by
    intro q
    by_cases hq : q = p
    · rw [hq]
      simp only [Volume.setInode, Function.update_self]
      exact hnum
    · exact congrArg Inode.iInum (Function.update_of_ne hq ..)
  have htidy : Tidy { s with vol := { s.vol.setInode p o.inode with disk := o.disk } } es :=
    hes.tidy.volume (fun _ _ q _ => hnums q) fun _ hr => hr
  have hindexed : Indexed (WriteThrough.putBack s f p o) es :=
    ⟨hkept.cached, hentries es hes.entries, htidy.congr rfl (fun _ => rfl) (fun _ => rfl)
      (fun _ => rfl) le_rfl (fun _ _ _ _ => rfl) fun _ hr => hr⟩
  exact h.of_files hkept ⟨es, hindexed⟩ fun g hg => .inl ⟨hg, movePos_fDentry o.fPos g⟩

theorem Inv.setPos (h : Inv s) (f : Nat) (pos : Int) : Inv (setPos s f pos) := by
  obtain ⟨es, hes⟩ := h.indexed
  have hkept := h.kept.setPos f pos
  exact h.of_files hkept ⟨es, hes.same hkept.cached rfl rfl rfl⟩ fun g hg =>
    .inl ⟨hg, movePos_fDentry pos g⟩

theorem Inv.sysWrite (h : Inv s) {fuel : Nat} {count ret : Int} {found : Found} {usr : Nat → UInt8}
    {ptrs : Pointers} (hopen : ∀ f, s.filp fd = some f → f ∈ s.files)
    (hwrite : sysWrite fuel s fd count found usr ptrs = .ok (ret, s')) : Inv s' := by
  have hkept := h.kept.sysWrite hopen hwrite
  simp only [WriteThrough.sysWrite, bind_eq_ok, deref_eq_ok] at hwrite
  obtain ⟨f, hf, d, hd, hwrite⟩ := hwrite
  split_ifs at hwrite
  · simp only [withPage_eq_ok, pure_eq_ok, Except.ok.injEq, Prod.mk.injEq] at hwrite
    exact hwrite.2.2 ▸ h
  · simp only [bind_eq_ok, deref_eq_ok, pure_eq_ok, Except.ok.injEq, Prod.mk.injEq] at hwrite
    obtain ⟨p, hp, ⟨bytes, o⟩, hcall, -, rfl⟩ := hwrite
    obtain ⟨es, hes⟩ := h.indexed
    have hlisted := h.kept.listed (hopen f hf) hd hp
    have hmem : p ∈ s.vol.inodeList := h.kept.cached.linked d hlisted p hp
    -- the file is not the root directory
    have hlow : d ≠ .root := fun heq => h.low f (hopen f hf) (heq ▸ hd)
    have hne : p ≠ .root := hes.inode_ne_root hlisted hlow hp
    simp only [FileIo.sysWrite, withPage_eq_ok, bind_eq_ok, pure_eq_ok, Except.ok.injEq,
      Prod.mk.injEq] at hcall
    obtain ⟨-, t, hloop, -, rfl⟩ := hcall
    have hv := h.kept.cached.through
    refine h.putBack hkept (fun es' hes' => ?_) ?_
    · exact (sysWriteLoop_entries hes' hv hmem hne rfl rfl hloop).1
    · exact (sysWriteLoop_entries hes.entries hv hmem hne rfl rfl hloop).2

theorem Inv.sysRead (h : Inv s) {fuel : Nat} {count ret : Int} {found : Found} {usr : Nat → UInt8}
    (hread : sysRead fuel s fd count found usr = .ok (ret, s')) : Inv s' := by
  have hkept := h.kept.sysRead hread
  simp only [WriteThrough.sysRead, bind_eq_ok, deref_eq_ok] at hread
  obtain ⟨f, -, d, -, hread⟩ := hread
  split_ifs at hread
  · simp only [withPage_eq_ok, pure_eq_ok, Except.ok.injEq, Prod.mk.injEq] at hread
    exact hread.2.2 ▸ h
  · simp only [bind_eq_ok, deref_eq_ok, pure_eq_ok, Except.ok.injEq, Prod.mk.injEq] at hread
    obtain ⟨p, -, ⟨bytes, got, o⟩, hcall, -, rfl⟩ := hread
    simp only [FileIo.sysRead, withPage_eq_ok, bind_eq_ok, pure_eq_ok, Except.ok.injEq,
      Prod.mk.injEq] at hcall
    obtain ⟨-, t, -, -, -, rfl⟩ := hcall
    have hsame : { s.vol.setInode p (s.vol.inode p) with disk := s.vol.disk } = s.vol := by
      simp only [Volume.setInode, Function.update_eq_self]
    refine h.putBack hkept (fun es hes => ?_) rfl
    show Entries { s.vol.setInode p (s.vol.inode p) with disk := s.vol.disk } es
    rw [hsame]
    exact hes

theorem Inv.sysLseek (h : Inv s) {offset whence ret : Int}
    (hseek : sysLseek s fd offset whence = .ok (ret, s')) : Inv s' := by
  simp only [WriteThrough.sysLseek, bind_eq_ok, deref_eq_ok] at hseek
  obtain ⟨f, -, hseek⟩ := hseek
  split_ifs at hseek
  · simp only [pure_eq_ok, Except.ok.injEq, Prod.mk.injEq] at hseek
    exact hseek.2 ▸ h.setPos f _
  · simp only [pure_eq_ok, Except.ok.injEq, Prod.mk.injEq] at hseek
    exact hseek.2 ▸ h.setPos f _
  · simp only [bind_eq_ok, deref_eq_ok, pure_eq_ok, Except.ok.injEq, Prod.mk.injEq] at hseek
    obtain ⟨d, -, p, -, -, rfl⟩ := hseek
    exact h.setPos f _
  · simp only [pure_eq_ok, Except.ok.injEq, Prod.mk.injEq] at hseek
    exact hseek.2 ▸ h

theorem Inv.step {a : WriteThrough.Call} (h : Inv s) (hready : Ready s a) (hwhole : Whole s a)
    (hfit : Fitting s a) (st : WriteThrough.Step s a s') : Inv s' := by
  obtain ⟨fuel, st⟩ := st
  cases a with
  | «open» pathname flags env =>
    simp only [WriteThrough.call, bind_eq_ok, pure_eq_ok, Except.ok.injEq] at st
    obtain ⟨⟨r, s₁⟩, hopen, rfl⟩ := st
    exact h.sysOpen hready hfit hopen
  | close fd env => exact h.sysClose st
  | truncate pathname length env =>
    simp only [WriteThrough.call, bind_eq_ok, pure_eq_ok, Except.ok.injEq] at st
    obtain ⟨⟨r, s₁⟩, htrunc, rfl⟩ := st
    exact h.sysTruncate hready hwhole htrunc
  | read fd count found usr =>
    simp only [WriteThrough.call, bind_eq_ok, pure_eq_ok, Except.ok.injEq] at st
    obtain ⟨⟨r, s₁⟩, hread, rfl⟩ := st
    exact h.sysRead hread
  | write fd count found usr ptrs =>
    simp only [WriteThrough.call, bind_eq_ok, pure_eq_ok, Except.ok.injEq] at st
    obtain ⟨⟨r, s₁⟩, hwrite, rfl⟩ := st
    exact h.sysWrite hready hwrite
  | lseek fd offset whence =>
    simp only [WriteThrough.call, bind_eq_ok, pure_eq_ok, Except.ok.injEq] at st
    obtain ⟨⟨r, s₁⟩, hseek, rfl⟩ := st
    exact h.sysLseek hseek

end Calls

section Runs

variable {memory : FsState} {disk : Disk} {ptrs : Pointers}

theorem fsInit_formatted (hinit : fsInit memory disk ptrs = .ok s) :
    formatted disk ptrs = .ok s.vol.disk := by
  simp only [DentryCache.fsInit, bind_eq_ok, access_eq_ok, pure_eq_ok, Except.ok.injEq] at hinit
  obtain ⟨disk', hformat, _, -, inode, -, rfl⟩ := hinit
  exact hformat

theorem Sound.formatted {disk' : Disk}
    (hdisk : wordAt (byteAt (disk 1)) 0 4 = superMagic → Sound disk)
    (h : formatted disk ptrs = .ok disk') : Sound disk' := by
  rw [DentryCache.formatted] at h
  split_ifs at h with hmagic
  · simp only [pure_eq_ok, Except.ok.injEq] at h
    exact h ▸ hdisk hmagic
  · exact Sound.mkfs h

/-- fs_init, on a disk without a file system or with a sound one. -/
theorem Inv.fsInit (hdisk : wordAt (byteAt (disk 1)) 0 4 = superMagic → Sound disk)
    (hinit : fsInit memory disk ptrs = .ok s) : Inv s := by
  have hkept : Kept s := .fsInit (fun hmagic => (hdisk hmagic).1) hinit
  obtain ⟨hlist, hroot, -, -, -, -, hfiles, -⟩ := fsInit_ok hinit
  have hsound : Sound s.vol.disk := Sound.formatted hdisk (fsInit_formatted hinit)
  obtain ⟨es, hentries⟩ := hsound.entries hkept.cached.through
  have honly : ∀ d ∈ s.dentryList, d = .root := by
    intro d hd
    rw [hlist] at hd
    exact List.mem_singleton.mp hd
  have hnone : children s = ∅ := by
    apply Finset.eq_empty_of_forall_notMem
    intro d hd
    obtain ⟨hmem, hne, -⟩ := mem_children.mp hd
    exact hne (honly d hmem)
  have htidy : Tidy s es := by
    refine ⟨fun d hd hne => absurd (honly d hd) hne, fun d hd hne => absurd (honly d hd) hne,
      fun _ => ?_⟩
    rw [hnone, hroot]
    decide
  refine ⟨hkept, ⟨es, hkept.cached, hentries, htidy⟩, fun f hf => ?_⟩
  rw [hfiles] at hf
  cases hf

/-- sys_open with the page that KERNEL_STRING takes for the path, and that nobody gives back. -/
def sysOpenFrom (mem : Mem) (s : FsState) (pathname : CStr) (flags : UInt32) (env : Env) :
    Kernel (Option (Fin nrMaxOpen) × FsState × Mem) := do
  let (_, mem) ← allocPage mem
  let (r, s) ← sysOpen s pathname flags env
  pure (r, s, mem)

/-- The same of the whole call. -/
def AnsweredFrom (mem : Mem) (s : FsState) (path : Pathname) (pathname : CStr) (flags : UInt32)
    (env : Env) : Prop :=
  ∃ r s' mem', sysOpenFrom mem s pathname flags env = .ok (r, s', mem') ∧
    (oCreat flags = false → r ≠ none →
      (lastName path).name ≠ [] ∧ InRoot s (lastName path).name)

theorem answeredFrom_iff {mem : Mem} (hspare : Spare mem) {path : Pathname} {pathname : CStr}
    {flags : UInt32} {env : Env} : AnsweredFrom mem s path pathname flags env ↔
      Answered s path pathname flags env := by
  obtain ⟨⟨page, mem'⟩, halloc⟩ := allocPage_spare.mpr hspare
  constructor
  · rintro ⟨r, s', mem'', hopen, hnamed⟩
    rw [sysOpenFrom, halloc, ok_bind, bind_eq_ok] at hopen
    obtain ⟨⟨r', s''⟩, hcall, hr⟩ := hopen
    obtain ⟨rfl, -⟩ := Prod.mk.inj (Except.ok.inj hr)
    exact ⟨r', s'', hcall, hnamed⟩
  · rintro ⟨r, s', hopen, hnamed⟩
    refine ⟨r, s', mem', ?_, hnamed⟩
    rw [sysOpenFrom, halloc, ok_bind, hopen]
    rfl

/-- Given a free page, descriptor, inode and block, sys_open answers a path exactly when it fits. -/
def Answers (s : FsState) : Prop := ∀ mem pathname path flags env,
  kernelString pathname = .ok path → Spare mem → freeSlot s ≠ none → Supplied s env →
    env.fileAt s.files ∉ s.files →
      (AnsweredFrom mem s path pathname flags env ↔ Fits s path flags)

/-- What the calls of a run are asked: to be ready, to cut no file, and to open paths that fit. -/
def Polite (s : FsState) (a : WriteThrough.Call) : Prop := Ready s a ∧ Whole s a ∧ Fitting s a

theorem Inv.answers (h : Inv s) : Answers s := by
  intro mem pathname path flags env hpath hspare hslot hsupply hfile
  obtain ⟨es, hes⟩ := h.indexed
  rw [answeredFrom_iff hspare]
  constructor
  · exact fits_of_answered hes hsupply.inode hslot hpath
  · exact answered_of_fits hes hsupply hfile hpath

/-- `open("/a")`, in a state where it can be looked up or created. -/
theorem polite_a {s : FsState} (flags : UInt32) (hroot : (s.dentry .root).dInode = some .root)
    (hspare : 0 ≤ (s.vol.inode (AliasLists.nextInode s plainEnv)).iRefcnt)
    (hbit : oCreat flags = true → ¬InodeBit s.vol.disk 2)
    (hsize : (s.vol.inode .root).iSize < maxSize) : Polite s (.open (rootPath [97]) flags plainEnv) := by
  refine ⟨fun path _ => ⟨fun _ => hspare, fun hcreat _ => ⟨2, by decide, hbit hcreat⟩⟩, trivial, ?_⟩
  intro path hpath
  have hname : IsName [97] := component_a.isName
  have hchars := kernelString_rootPath hname hpath
  have hlast := lastName_rootPath hname hchars
  have hone : moreDirs (pathFirst (rest path)) = false := by
    rw [rest_rootPath hchars]
    decide
  refine ⟨⟨?_, hroot, ?_⟩, fun _ _ => ?_⟩
  · rw [hchars]
    rfl
  · rw [if_neg (by rw [hone]; exact Bool.false_ne_true), hlast, LastFits,
      if_neg (List.cons_ne_nil _ _)]
    exact ⟨by decide, fun _ => .inr hsize⟩
  · rw [hlast]
    exact List.cons_ne_nil _ _

end Runs

end RxdOs.Fs.UserPaths
