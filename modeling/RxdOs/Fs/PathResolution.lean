/- RxdOs/Fs/PathResolution
   source: fs/fs.c (_open, get_dentry, _qstrcmp, path_for_each), lib/string.c
   digest: _open against the directory tree on the disk: which paths it resolves. -/

import RxdOs.Fs.CacheReach
import RxdOs.Fs.Directory

set_option autoImplicit false
set_option relaxedAutoImplicit false

namespace RxdOs.Fs.PathResolution

open RxdOs.Base.Assert RxdOs.Fs.Bitmap RxdOs.Fs.Layout RxdOs.Fs.Zone RxdOs.Fs.InodeCache
  RxdOs.Fs.Name RxdOs.Fs.Dir RxdOs.Fs.FileBytes RxdOs.Fs.Directory RxdOs.Fs.DentryCache
  RxdOs.Fs.Open RxdOs.Fs.CacheReach

/-! ## The tree on the disk -/

/-- A component of a path: a name of 1 to 23 characters. -/
structure Component (c : CStr) : Prop where
  nonempty : c ≠ []
  short : c.length < maxDentryLength
  isName : IsName c

/-- `/c1/c2/.../cn` -/
def pathChars (cs : List CStr) : CStr := cs.flatMap fun c => slash :: c

/-- The entries of each directory, by its inode number. -/
abbrev DirTree := Nat → Option (List Record)

/-- What `name` is bound to in directory `n`. -/
def lookup (t : DirTree) (n : Nat) (name : CStr) : Option Nat :=
  (t n).bind fun es => mapOf es name

/-- The inode number a path leads to from directory `n`, one component after the other. -/
def resolve (t : DirTree) : Nat → List CStr → Option Nat
  | n, [] => some n
  | n, c :: cs => (lookup t n c).bind fun m => resolve t m cs

/-- Inode `n` is in use, and its record carries its number. -/
def Allocated (disk : Disk) (n : Nat) : Prop :=
  n ≠ 0 ∧ n < sectorBits ∧ InodeBit disk n ∧ (decode (disk (inodeBlk n)) (inodeOff n) 0).iInum = n

/-- The disk holds the tree, from directory 1 down. -/
structure OnDisk (t : DirTree) (disk : Disk) : Prop where
  root : t 1 ≠ none
  dirs : ∀ n es, t n = some es →
    Allocated disk n ∧ Listing ⟨disk, decode (disk (inodeBlk n)) (inodeOff n) 0⟩ es
  entries : ∀ n es, t n = some es → ∀ r ∈ es, Component r.name ∧ Allocated disk r.inode

/-- The caches say what the disk says: the inodes of directories are as on the disk, and each
dentry in use is named after the entry of its inode. -/
structure Consistent (t : DirTree) (s : FsState) : Prop where
  onDisk : OnDisk t s.vol.disk
  parent : (s.dentry .root).dParent = some .root
  name : (s.dentry .root).dName = rootName
  inode : (s.dentry .root).dInode = some .root
  counted : 0 < (s.dentry .root).dRefcnt
  listed : .root ∈ s.vol.inodeList
  number : (s.vol.inode .root).iInum = 1
  inodes : ∀ p ∈ s.vol.inodeList, ∀ es, t (s.vol.inode p).iInum = some es →
    Listing ⟨s.vol.disk, s.vol.inode p⟩ es
  dentries : ∀ d ∈ s.dentryList, d ≠ .root → (s.dentry d).dRefcnt ≠ 0 →
    ∀ parent, (s.dentry d).dParent = some parent → ∃ q p name,
      (s.dentry parent).dInode = some q ∧ (s.dentry d).dInode = some p ∧ Component name ∧
      (s.dentry d).dName.toQStr = ⟨name.length, name⟩ ∧
      lookup t (s.vol.inode q).iInum name = some (s.vol.inode p).iInum

/-- kmem_cache_alloc hands out objects that are not in use. -/
structure Fresh (s : FsState) (env : Env) : Prop where
  inode : .obj (env.inodeAt s.vol.inodeList) ∉ s.vol.inodeList
  dentry : .obj (env.dentryAt s.dentryList) ∉ s.dentryList

/-- `e` is the cached dentry that the names `cs` lead to from `d`. -/
def PathTo (s : FsState) : DentryPtr → List CStr → DentryPtr → Prop
  | d, [], e => e = d
  | d, c :: cs, e => ∃ x ∈ s.dentryList, (s.dentry x).dParent = some d ∧
      (s.dentry x).dName.toQStr = ⟨c.length, c⟩ ∧ PathTo s x cs e

/-- _open returns what the tree says, whatever was cached: the dentry at the end of the path,
with the inode of the last entry, or NULL.  A copy that leaves its buffer never returns. -/
def OpensTo (t : DirTree) (cs : List CStr) (r : Kernel (Option DentryPtr × FsState)) : Prop :=
  match resolve t 1 cs with
  | some n => ∃ d s' p, r = .ok (some d, s') ∧ PathTo s' .root cs d ∧
      (s'.dentry d).dInode = some p ∧ (s'.vol.inode p).iInum = n
  | none => ∃ s', r = .ok (none, s')

/-! ## Components -/

section Components

variable {c : CStr} {cs : List CStr}

theorem Component.length_pos (h : Component c) : 0 < c.length := List.length_pos_iff.mpr h.nonempty

/-- What follows a component starts with a slash. -/
theorem strcspn_component (h : IsName c) : strcspn (c ++ pathChars cs) [slash] = c.length := by
  have hall : ∀ x ∈ c, decide (x ≠ 0 ∧ x ∉ [slash]) = true := by
    intro x hx
    obtain ⟨hnul, hslash⟩ := h x hx
    exact decide_eq_true ⟨hnul, fun hmem => hslash (List.mem_singleton.mp hmem)⟩
  have hstop : (pathChars cs).takeWhile (fun x => decide (x ≠ 0 ∧ x ∉ [slash])) = [] := by
    cases cs with
    | nil => rfl
    | cons b cs =>
      rw [pathChars, List.flatMap_cons, List.cons_append, List.takeWhile_cons_of_neg]
      decide
  rw [strcspn, List.takeWhile_append_of_pos hall, hstop, List.append_nil]

theorem pathFirst_append (h : Component c) :
    pathFirst (c ++ pathChars cs) = ⟨c.length, c ++ pathChars cs⟩ := by
  rw [pathFirst, strcspn_component h.isName, if_neg h.length_pos.ne']

theorem moreComponents_append (h : Component c) (str : CStr) :
    moreComponents ⟨c.length, c ++ str⟩ = true := by
  cases c with
  | nil => exact absurd rfl h.nonempty
  | cons x c => exact decide_eq_true (h.isName x (List.mem_cons_self ..)).1

theorem charAt_append_left {str : CStr} {i : Nat} (hi : i < c.length) :
    charAt (c ++ str) i = charAt c i := by
  rw [charAt, charAt, List.getD_append _ _ _ _ hi]

theorem charAt_slash (hcs : cs ≠ []) : charAt (c ++ pathChars cs) c.length = slash := by
  cases cs with
  | nil => exact absurd rfl hcs
  | cons b cs =>
    rw [charAt, List.getD_append_right _ _ _ _ le_rfl, Nat.sub_self]
    rfl

/-- strncmp of a component against the name of an entry. -/
theorem strncmp_component (h : Component c) (str : CStr) (q : Record) :
    strncmp (c ++ str) q.entry.name c.length = 0 ↔
      ∀ i ≤ c.length, charAt (c ++ str) i = charAt q.name i := by
  show strncmp (c ++ str) (padded q.name) c.length = 0 ↔ _
  rw [strncmp, if_neg h.length_pos.ne', strncmpLoop_eq_zero fun i hi => by
    rw [charAt_append_left hi]
    exact charAt_ne_zero h.isName.noNul hi]
  simp only [charAt_padded]

/-- The last component is compared up to the end of both names. -/
theorem strncmp_last (h : Component c) (q : Record) :
    strncmp c q.entry.name c.length = 0 ↔ c = q.name := by
  have hcmp := strncmp_component h [] q
  rw [List.append_nil] at hcmp
  rw [hcmp]
  constructor
  · exact eq_of_charAt h.isName.noNul q.noNul
  · intro heq i _
    rw [heq]

/-- Any other component is compared with the slash behind it, which no name has. -/
theorem strncmp_inner (h : Component c) (hcs : cs ≠ []) {q : Record} (hq : slash ∉ q.name) :
    strncmp (c ++ pathChars cs) q.entry.name c.length ≠ 0 := by
  rw [Ne, strncmp_component h]
  intro hall
  have hend := hall c.length le_rfl
  rw [charAt_slash hcs] at hend
  by_cases hlt : c.length < q.name.length
  · rw [charAt_of_lt hlt] at hend
    exact hq (hend ▸ List.getElem_mem hlt)
  · rw [charAt_of_le (not_lt.mp hlt)] at hend
    exact absurd hend (by decide)

theorem qstr_eq_of_qstrcmp {name : CStr} (hname : Component name) (h : Component c)
    (hcmp : qstrcmp ⟨name.length, name⟩ ⟨c.length, c⟩ = 0) : name = c := by
  obtain ⟨-, hcmp⟩ := qstrcmp_eq_zero hcmp
  rw [strncmp, if_neg hname.length_pos.ne',
    strncmpLoop_eq_zero fun i hi => charAt_ne_zero hname.isName.noNul hi] at hcmp
  exact eq_of_charAt hname.isName.noNul h.isName.noNul hcmp

end Components

/-! ## get_dentry -/

section GetDentry

variable {s s' : FsState} {env : Env} {parent : DentryPtr} {dir : InodePtr} {dname : QStr}

theorem getDentry_hit {d : DentryPtr} (hdir : (s.dentry parent).dInode = some dir)
    (hfind : findDentry s parent dname = some d) :
    getDentry s parent dname env = .ok (some d, addRef s d 1) := by
  simp only [getDentry, hdir, deref, hfind]
  rfl

/-- The directory has no such entry. -/
theorem getDentry_absent (hdir : (s.dentry parent).dInode = some dir)
    (hnone : findDentry s parent dname = none) (hlen : dname.len < maxDentryLength)
    {target de : DirEntry} (htarget : lookupEntry dname env = .ok target)
    (hfind : findDirEntry s.vol.disk (s.vol.inode dir) target = .ok (-1, de)) :
    getDentry s parent dname env = .ok (none, s) := by
  simp only [getDentry, hdir, deref, hnone, assert_pos hlen, htarget, hfind, ok_bind, pure_eq_ok]
  exact if_pos (by decide)

/-- The entry is there, and its inode and a new dentry are to be had. -/
theorem getDentry_present (hdir : (s.dentry parent).dInode = some dir)
    (hnone : findDentry s parent dname = none) (hlen : dname.len < maxDentryLength)
    {target de : DirEntry} (htarget : lookupEntry dname env = .ok target) {pos : Int}
    (hfind : findDirEntry s.vol.disk (s.vol.inode dir) target = .ok (pos, de)) (hpos : 0 ≤ pos)
    {p : InodePtr} {vol : Volume}
    (hinode : getInode s.vol de.inode (env.inodeAt s.vol.inodeList) = .ok (p, vol))
    (hfresh : .obj (env.dentryAt s.dentryList) ∉ s.dentryList) {dName : DName}
    (hname : copyName dname = .ok dName) :
    getDentry s parent dname env = .ok (some (.obj (env.dentryAt s.dentryList)),
      addDentry { s with vol := vol } (.obj (env.dentryAt s.dentryList)) parent dName p) := by
  have halloc : allocDentry { s with vol := vol } env = .ok (.obj (env.dentryAt s.dentryList)) := by
    simp only [allocDentry, access_pos hfresh, ok_bind, pure_eq_ok]
  simp only [getDentry, hdir, deref, hnone, assert_pos hlen, htarget, hfind, ok_bind, pure_eq_ok,
    if_neg (not_lt.mpr hpos), hinode, halloc, hname]

/-- A name longer than de.name makes strncpy run past the buffer. -/
theorem getDentry_overrun (hnone : findDentry s parent dname = none)
    (hlong : maxDentryLength < strlen dname.name) (r : Option DentryPtr) :
    getDentry s parent dname env ≠ .ok (r, s') := by
  intro hget
  obtain ⟨dir, -, ⟨d, hfind, -⟩ | ⟨-, pos, inum, hlook, -⟩⟩ := getDentry_ok hget
  · rw [hnone] at hfind
    cases hfind
  · simp only [lookupDisk, lookupEntry, bind_eq_ok] at hlook
    obtain ⟨_, -, target, ⟨name, hcopy, -⟩, -⟩ := hlook
    exact absurd (strncpy_ok hcopy).1 (not_le.mpr hlong)

/-- get_inode of a number that is in use. -/
theorem getInode_total {v : Volume} {inum addr : Nat} (h : Allocated v.disk inum)
    (hfresh : .obj addr ∉ v.inodeList) :
    ∃ p v', getInode v inum addr = .ok (p, v') ∧ (v'.inode p).iInum = inum := by
  obtain ⟨hne, hlt, hbit, hnumber⟩ := h
  have hread := readInode_of_bit hne hlt hbit hnumber
  cases hfind : findInode v inum with
  | some p =>
    have hget : getInode v inum addr =
        .ok (p, v.setInode p { v.inode p with iRefcnt := (v.inode p).iRefcnt + 1 }) := by
      unfold findInode at hfind
      simp only [getInode, hfind, pure_eq_ok]
    refine ⟨p, _, hget, ?_⟩
    simp only [Volume.setInode, Function.update_self]
    exact (findInode_some hfind).2.1
  | none =>
    unfold findInode at hfind
    simp only [getInode, hfind, allocInode, access_pos hfresh, hread, ok_bind, pure_eq_ok]
    refine ⟨_, _, rfl, ?_⟩
    simp only [Function.update_self]
    exact hnumber

end GetDentry

/-! ## The walk -/

section Walk

variable {s s' : FsState} {env : Env} {path : Pathname} {d : DentryPtr} {dname : QStr}

theorem openPath_eq (hslash : charAt path.chars 0 = slash) : openPath s path env =
    walk moreComponents env ((rest path).length + 2) (addRef s .root 1) .root
      (pathFirst (rest path)) := by
  rw [openPath, walkPath, assert_pos hslash]
  rfl

theorem walk_found {more : QStr → Bool} {fuel : Nat} {child : DentryPtr}
    (hmore : more dname = true) (hget : getDentry s d dname env = .ok (some child, s'))
    (hend : more (pathNext dname) = false) :
    walk more env (fuel + 2) s d dname = .ok (some child, s') := by
  simp only [walk, hmore, if_true, hget, ok_bind, hend, Bool.false_eq_true, if_false, pure_eq_ok]

theorem walk_missing {more : QStr → Bool} {fuel : Nat} (hmore : more dname = true)
    (hget : getDentry s d dname env = .ok (none, s)) (hclose : close s d env = .ok s') :
    walk more env (fuel + 1) s d dname = .ok (none, s') := by
  simp only [walk, hmore, if_true, hget, ok_bind, hclose, pure_eq_ok]

/-- put_dentry of a dentry that stays cached. -/
theorem putDentry_kept {parent : DentryPtr} {p : InodePtr} (hpos : 0 < (s.dentry d).dRefcnt)
    (hparent : (s.dentry d).dParent = some parent) (hinode : (s.dentry d).dInode = some p)
    (hleft : (s.dentry d).dRefcnt - (if parent = d then 3 else 2) ≠ 0) :
    putDentry s d env = .ok (unlinkDentry s d parent p) := by
  have hafter : ((unlinkDentry s d parent p).dentry d).dRefcnt ≠ 0 := by
    rw [unlinkDentry_self]
    exact hleft
  let s₁ := addRef s parent (-1)
  let s₂ := addRef (s₁.setDentry d { s₁.dentry d with dParent := none }) d (-1)
  have hunparent : dunlinkParent s d = .ok s₂ := by
    simp only [dunlinkParent, hparent, deref]
    rfl
  have hstill : (s₂.dentry d).dInode = some p := by
    rw [← hinode]
    by_cases hd : d = parent
    · simp [s₂, s₁, addRef, FsState.setDentry, hd]
    · simp [s₂, s₁, addRef, FsState.setDentry, hd]
  have huninode : dunlinkInode s₂ d = .ok (unlinkDentry s d parent p) := by
    simp only [dunlinkInode, hstill, deref]
    rfl
  have hassert : (s.dentry d).dRefcnt > 0 := hpos
  rw [putDentry, assert_pos hassert]
  simp only [ok_bind, hunparent, huninode, if_neg hafter, pure_eq_ok]

/-- Closing root_dentry works unless its count goes to zero. -/
theorem close_root_iff (hparent : (s.dentry .root).dParent = some .root)
    (hinode : (s.dentry .root).dInode = some .root) (hpos : 0 < (s.dentry .root).dRefcnt) :
    (∃ s', close s .root env = .ok s') ↔ (s.dentry .root).dRefcnt ≠ 3 := by
  rw [close_eq_putDentry hparent]
  constructor
  · rintro ⟨s', hput⟩ hthree
    obtain ⟨-, parent, p, hparent', -, ⟨hleft, -⟩ | ⟨-, hroot, -⟩⟩ := putDentry_ok hput
    · obtain rfl : DentryPtr.root = parent := Option.some.inj (hparent.symm.trans hparent')
      rw [if_pos rfl] at hleft
      omega
    · exact hroot rfl
  · intro hne
    refine ⟨_, putDentry_kept hpos hparent hinode ?_⟩
    rw [if_pos rfl]
    omega

end Walk

/-! ## Resolving -/

section Resolve

variable {t : DirTree} {s s' : FsState} {env : Env} {c : CStr} {cs : List CStr} {path : Pathname}

/-- _open takes a reference to root_dentry first. -/
theorem Consistent.opened (h : Consistent t s) : Consistent t (addRef s .root 1) := by
  have hcount : ((addRef s .root 1).dentry .root).dRefcnt = (s.dentry .root).dRefcnt + 1 := by
    rw [addRef_self]
  have hpos := h.counted
  refine ⟨h.onDisk, ?_, ?_, ?_, by omega, h.listed, h.number, h.inodes, ?_⟩
  · rw [addRef_self]
    exact h.parent
  · rw [addRef_self]
    exact h.name
  · rw [addRef_self]
    exact h.inode
  · intro d hd hne
    rw [addRef_of_ne 1 hne]
    intro href parent hparent
    obtain ⟨q, p, name, hq, hrest⟩ := h.dentries d hd hne href parent hparent
    refine ⟨q, p, name, ?_, hrest⟩
    rw [addRef_dentry]
    exact hq

/-- The root directory as get_dentry reads it. -/
theorem Consistent.rootListing (h : Consistent t s) : ∃ es, t 1 = some es ∧
    Listing ⟨s.vol.disk, s.vol.inode .root⟩ es := by
  obtain ⟨es, hes⟩ := Option.ne_none_iff_exists'.mp h.onDisk.root
  refine ⟨es, hes, h.inodes .root h.listed es ?_⟩
  rw [h.number, hes]

/-- A cached dentry that get_dentry hits under root_dentry is what the tree says. -/
theorem Consistent.hit (h : Consistent t s) (hc : Component c) {d : DentryPtr}
    (hfind : findDentry s .root ⟨c.length, c⟩ = some d) :
    d ∈ s.dentryList ∧ (s.dentry d).dParent = some .root ∧
      (s.dentry d).dName.toQStr = ⟨c.length, c⟩ ∧ ∃ p, (s.dentry d).dInode = some p ∧
        lookup t 1 c = some (s.vol.inode p).iInum := by
  obtain ⟨hd, hcmp, href, hparent⟩ := findDentry_some hfind
  have hroot : d ≠ .root := by
    rintro rfl
    rw [h.name] at hcmp
    exact qstrcmp_rootName hc.isName hcmp
  obtain ⟨q, p, name, hq, hp, hname, hqstr, hlook⟩ := h.dentries d hd hroot href .root hparent
  rw [hqstr] at hcmp
  obtain rfl := qstr_eq_of_qstrcmp hname hc hcmp
  obtain rfl : InodePtr.root = q := Option.some.inj (h.inode.symm.trans hq)
  rw [h.number] at hlook
  exact ⟨hd, hparent, hqstr, p, hp, hlook⟩

theorem lookupEntry_of_le (hnul : ∀ x ∈ c, x ≠ 0) {len : Nat} (hle : c.length ≤ maxDentryLength) :
    lookupEntry ⟨len, c⟩ env = .ok ⟨env.deInode, 0, len, 0, c⟩ := by
  have hcopy : strncpy c maxDentryLength = .ok c := by
    rw [strncpy, access_pos (by rw [strlen_of_noNul hnul]; exact hle), ok_bind,
      List.takeWhile_eq_self_iff.mpr (by simpa using hnul)]
    rfl
  simp only [lookupEntry, hcopy, ok_bind, pure_eq_ok]

theorem copyName_whole (hnul : ∀ x ∈ c, x ≠ 0) :
    ∃ dName, copyName ⟨c.length, c⟩ = .ok dName ∧ dName.toQStr = ⟨c.length, c⟩ := by
  have hself : c.takeWhile (· ≠ 0) = c := List.takeWhile_eq_self_iff.mpr (by simpa using hnul)
  have hle : strlen c ≤ c.length := (strlen_of_noNul hnul).le
  refine ⟨_, dif_pos hle, ?_⟩
  simp only [hself]

/-- The last component of a path under root_dentry, if the tree has it. -/
theorem Consistent.getDentry_found (h : Consistent t s) (hfresh : Fresh s env) (hc : Component c)
    {n : Nat} (hlook : lookup t 1 c = some n) : ∃ d s' p,
      getDentry s .root ⟨c.length, c⟩ env = .ok (some d, s') ∧ PathTo s' .root [c] d ∧
      (s'.dentry d).dInode = some p ∧ (s'.vol.inode p).iInum = n := by
  cases hfind : findDentry s .root ⟨c.length, c⟩ with
  | some d =>
    obtain ⟨hd, hparent, hqstr, p, hp, hnumber⟩ := h.hit hc hfind
    rw [hlook] at hnumber
    refine ⟨d, addRef s d 1, p, getDentry_hit h.inode hfind, ⟨d, hd, ?_, ?_, rfl⟩, ?_,
      (Option.some.inj hnumber).symm⟩
    · rw [addRef_self]
      exact hparent
    · rw [addRef_self]
      exact hqstr
    · rw [addRef_self]
      exact hp
  | none =>
    obtain ⟨es, hes, hlist⟩ := h.rootListing
    have hmap : mapOf es c = some n := by
      rw [lookup, hes] at hlook
      exact hlook
    have htarget := @lookupEntry_of_le env c hc.isName.noNul c.length hc.short.le
    obtain ⟨k, hk, hcmp, hentry⟩ | ⟨hnone, -⟩ :=
      hlist.search ⟨env.deInode, 0, c.length, 0, c⟩
    · have hname : c = es[k].name := (strncmp_last hc es[k]).mp hcmp
      have hinum : es[k].inode = n := by
        rw [hname, mapOf_of_mem hlist.nodup (List.getElem_mem hk)] at hmap
        exact Option.some.inj hmap
      have halloc : Allocated s.vol.disk es[k].inode :=
        (h.onDisk.entries 1 es hes _ (List.getElem_mem hk)).2
      obtain ⟨p, vol, hinode, hnumber⟩ := getInode_total halloc hfresh.inode
      obtain ⟨dName, hcopy, hqstr⟩ := copyName_whole hc.isName.noNul
      have hnew : DentryPtr.obj (env.dentryAt s.dentryList) ≠ .root := nofun
      have hself := @addDentry_self { s with vol := vol } _ .root p dName hnew
      refine ⟨_, _, p, getDentry_present h.inode hfind hc.short htarget hentry
        (Int.natCast_nonneg _) hinode hfresh.dentry hcopy, ⟨_, List.mem_cons_self .., ?_, ?_, rfl⟩,
        ?_, ?_⟩
      · rw [hself]
      · rw [hself]
        exact hqstr
      · rw [hself]
      · rw [addDentry_inode]
        exact hnumber.trans hinum
    · have hmissing : mapOf es c = none := by
        refine mapOf_eq_none.mpr fun q hq heq => hnone q hq ?_
        exact (strncmp_last hc q).mpr heq.symm
      rw [hmissing] at hmap
      cases hmap

/-- The last component of a path under root_dentry, if the tree does not have it. -/
theorem Consistent.getDentry_missing (h : Consistent t s) (hc : Component c)
    (hlook : lookup t 1 c = none) :
    getDentry s .root ⟨c.length, c⟩ env = .ok (none, s) := by
  have hnot : findDentry s .root ⟨c.length, c⟩ = none := by
    cases hfind : findDentry s .root ⟨c.length, c⟩ with
    | none => rfl
    | some d =>
      obtain ⟨-, -, -, p, -, hnumber⟩ := h.hit hc hfind
      rw [hlook] at hnumber
      cases hnumber
  obtain ⟨es, hes, hlist⟩ := h.rootListing
  have hmap : mapOf es c = none := by
    rw [lookup, hes] at hlook
    exact hlook
  have htarget := @lookupEntry_of_le env c hc.isName.noNul c.length hc.short.le
  obtain ⟨k, hk, hcmp, -⟩ | ⟨-, hentry⟩ := hlist.search ⟨env.deInode, 0, c.length, 0, c⟩
  · have hname : c = es[k].name := (strncmp_last hc es[k]).mp hcmp
    exact absurd hname.symm (mapOf_eq_none.mp hmap _ (List.getElem_mem hk))
  · exact getDentry_absent h.inode hnot hc.short htarget hentry

theorem rest_of_chars (hpath : path.chars = pathChars (c :: cs)) :
    charAt path.chars 0 = slash ∧ rest path = c ++ pathChars cs := by
  rw [rest, hpath]
  exact ⟨rfl, rfl⟩

theorem pathChars_length_pos (hcs : cs ≠ []) : 0 < (pathChars cs).length := by
  cases cs with
  | nil => exact absurd rfl hcs
  | cons b cs => exact Nat.succ_pos _

/-- No cached dentry compares equal to a component that goes on with a slash. -/
theorem findDentry_inner (hc : Component c) (hcs : cs ≠ [])
    (hnul : ∀ x ∈ c ++ pathChars cs, x ≠ 0) :
    findDentry s .root ⟨c.length, c ++ pathChars cs⟩ = none := by
  cases hfind : findDentry s .root ⟨c.length, c ++ pathChars cs⟩ with
  | none => rfl
  | some d =>
    obtain ⟨-, hcmp, -, -⟩ := findDentry_some hfind
    have hle := strlen_le_of_qstrcmp hcmp (s.dentry d).dName.ends hc.length_pos.ne'
    change strlen (c ++ pathChars cs) ≤ c.length at hle
    rw [strlen_of_noNul hnul, List.length_append] at hle
    have hpos := pathChars_length_pos hcs
    omega

/-- get_dentry never finds a component that is not the last one. -/
theorem Consistent.getDentry_inner (h : Consistent t s) (hc : Component c) (hcs : cs ≠ [])
    (hnul : ∀ x ∈ c ++ pathChars cs, x ≠ 0)
    (hle : (c ++ pathChars cs).length ≤ maxDentryLength) :
    getDentry s .root ⟨c.length, c ++ pathChars cs⟩ env = .ok (none, s) := by
  obtain ⟨es, hes, hlist⟩ := h.rootListing
  have htarget := @lookupEntry_of_le env _ hnul c.length hle
  obtain ⟨k, hk, hcmp, -⟩ | ⟨-, hentry⟩ :=
    hlist.search ⟨env.deInode, 0, c.length, 0, c ++ pathChars cs⟩
  · have hmem := List.getElem_mem hk
    have hslash : slash ∉ es[k].name := fun hin =>
      ((h.onDisk.entries 1 es hes _ hmem).1.isName slash hin).2 rfl
    exact absurd hcmp (strncmp_inner hc hcs hslash)
  · exact getDentry_absent h.inode (findDentry_inner hc hcs hnul) hc.short htarget hentry

/-- The walk, for a path of one component. -/
theorem Consistent.open_single (h : Consistent t s) (hfresh : Fresh s env) (hc : Component c)
    (hpath : path.chars = pathChars [c]) : OpensTo t [c] (openPath s path env) ↔
      (lookup t 1 c = none → (s.dentry .root).dRefcnt ≠ 2) := by
  obtain ⟨hslash, hrest⟩ := rest_of_chars hpath
  have hfirst : pathFirst (rest path) = ⟨c.length, c⟩ := by
    have happend := @pathFirst_append c [] hc
    rw [show c ++ pathChars [] = c from List.append_nil c] at happend
    rw [hrest, show c ++ pathChars [] = c from List.append_nil c, happend]
  have hmore : moreComponents ⟨c.length, c⟩ = true := by
    have happend := moreComponents_append hc []
    rwa [List.append_nil] at happend
  have hresolve : resolve t 1 [c] = lookup t 1 c := by
    rw [resolve]
    cases lookup t 1 c with
    | none => rfl
    | some n => rfl
  have hopened : Consistent t (addRef s .root 1) := h.opened
  rw [openPath_eq hslash, hfirst, OpensTo, hresolve]
  cases hlook : lookup t 1 c with
  | some n =>
    have hend : moreComponents (pathNext ⟨c.length, c⟩) = false :=
      decide_eq_false (not_not.mpr (pathNext_of_whole rfl))
    have hfresh' : Fresh (addRef s .root 1) env := ⟨hfresh.inode, hfresh.dentry⟩
    obtain ⟨d, s', p, hget, hpathTo, hp, hnumber⟩ := hopened.getDentry_found hfresh' hc hlook
    have hwalk := @walk_found (addRef s .root 1) s' env .root _ moreComponents (rest path).length d
      hmore hget hend
    constructor
    · intro _ hnone
      cases hnone
    · intro _
      exact ⟨d, s', p, hwalk, hpathTo, hp, hnumber⟩
  | none =>
    have hget : getDentry (addRef s .root 1) .root ⟨c.length, c⟩ env =
        .ok (none, addRef s .root 1) := hopened.getDentry_missing hc hlook
    have hcount : ((addRef s .root 1).dentry .root).dRefcnt = (s.dentry .root).dRefcnt + 1 := by
      rw [addRef_self]
    have hclose := @close_root_iff (addRef s .root 1) env hopened.parent hopened.inode hopened.counted
    rw [hcount] at hclose
    constructor
    · rintro ⟨s', hopen⟩ -
      obtain ⟨hno, -⟩ | ⟨-, ⟨-, hdone, -⟩ | ⟨child, s₁, hfound, -⟩⟩ := walk_cases hopen
      · rw [hmore] at hno
        cases hno
      · have hne := hclose.mp ⟨s', hdone⟩
        omega
      · rw [hget] at hfound
        cases hfound
    · intro hne
      have hne' := hne rfl
      obtain ⟨s', hdone⟩ := hclose.mpr (by omega)
      exact ⟨s', walk_missing hmore hget hdone⟩

/-- The walk, for a path that goes on after its first component. -/
theorem Consistent.open_several (h : Consistent t s) (hc : Component c) (hcs : cs ≠ [])
    (hpath : path.chars = pathChars (c :: cs)) : OpensTo t (c :: cs) (openPath s path env) ↔
      resolve t 1 (c :: cs) = none ∧ (rest path).length ≤ maxDentryLength ∧
        (s.dentry .root).dRefcnt ≠ 2 := by
  obtain ⟨hslash, hrest⟩ := rest_of_chars hpath
  have hnul : ∀ x ∈ c ++ pathChars cs, x ≠ 0 := hrest ▸ rest_noNul path
  have hmore := moreComponents_append hc (pathChars cs)
  have hopened : Consistent t (addRef s .root 1) := h.opened
  have hcount : ((addRef s .root 1).dentry .root).dRefcnt = (s.dentry .root).dRefcnt + 1 := by
    rw [addRef_self]
  have hclose := @close_root_iff (addRef s .root 1) env hopened.parent hopened.inode hopened.counted
  rw [hcount] at hclose
  have hfind := @findDentry_inner (addRef s .root 1) c cs hc hcs hnul
  -- whatever the walk returns, it returns NULL, and get_dentry has come back from its copies
  have hreturns : ∀ r s', openPath s path env = .ok (r, s') → r = none ∧
      (rest path).length ≤ maxDentryLength ∧ (s.dentry .root).dRefcnt ≠ 2 := by
    intro r s' hopen
    rw [openPath_eq hslash, hrest, pathFirst_append hc] at hopen
    have hget : ∀ r s', getDentry (addRef s .root 1) .root ⟨c.length, c ++ pathChars cs⟩ env =
        .ok (r, s') → (rest path).length ≤ maxDentryLength := by
      intro r s' hget
      by_contra hlong
      refine getDentry_overrun hfind ?_ r hget
      rw [strlen_of_noNul hnul, ← hrest]
      exact not_le.mp hlong
    obtain ⟨hno, -⟩ | ⟨-, ⟨hnone, hdone, hr⟩ | ⟨child, s₁, hfound, -⟩⟩ := walk_cases hopen
    · rw [hmore] at hno
      cases hno
    · have hne := hclose.mp ⟨s', hdone⟩
      exact ⟨hr, hget _ _ hnone, by omega⟩
    · have hle := hget _ _ hfound
      rw [hrest] at hle
      rw [hopened.getDentry_inner hc hcs hnul hle] at hfound
      cases hfound
  constructor
  · intro hto
    unfold OpensTo at hto
    cases hres : resolve t 1 (c :: cs) with
    | some n =>
      rw [hres] at hto
      obtain ⟨d, s', p, hopen, -⟩ := hto
      obtain ⟨hnone, -⟩ := hreturns _ _ hopen
      cases hnone
    | none =>
      rw [hres] at hto
      obtain ⟨s', hopen⟩ := hto
      obtain ⟨-, hle, hne⟩ := hreturns _ _ hopen
      exact ⟨rfl, hle, hne⟩
  · rintro ⟨hres, hle, hne⟩
    unfold OpensTo
    rw [hres]
    have hget : getDentry (addRef s .root 1) .root _ env = .ok (none, addRef s .root 1) :=
      hopened.getDentry_inner hc hcs hnul (hrest ▸ hle)
    obtain ⟨s', hdone⟩ := hclose.mpr (by omega)
    refine ⟨s', ?_⟩
    rw [openPath_eq hslash]
    conv_lhs => rw [hrest, pathFirst_append hc]
    exact walk_missing hmore hget hdone

/-- _open resolves a path exactly when it has one component that exists; it reports a path that
does not exist when the path is short and root_dentry is not left without references. -/
theorem open_resolves_iff (h : Consistent t s) (hfresh : Fresh s env) (hcs : cs ≠ [])
    (hc : ∀ c ∈ cs, Component c) (hpath : path.chars = pathChars cs) :
    OpensTo t cs (openPath s path env) ↔
      (resolve t 1 cs ≠ none ∧ cs.length = 1) ∨
        resolve t 1 cs = none ∧ path.chars.length ≤ 25 ∧ (s.dentry .root).dRefcnt ≠ 2 := by
  obtain ⟨c, cs, rfl⟩ := List.exists_cons_of_ne_nil hcs
  have hfirst := hc c (List.mem_cons_self ..)
  have hlen : path.chars.length = (rest path).length + 1 := by
    rw [(rest_of_chars hpath).2, hpath]
    rfl
  by_cases hsingle : cs = []
  · subst hsingle
    rw [h.open_single hfresh hfirst hpath]
    have hresolve : resolve t 1 [c] = none ↔ lookup t 1 c = none := by
      rw [resolve]
      cases lookup t 1 c with
      | none => rfl
      | some n => simp [resolve]
    have hshort : path.chars.length ≤ 25 := by
      have hlt : c.length < 24 := hfirst.short
      rw [hlen, (rest_of_chars hpath).2, List.length_append]
      show c.length + 0 + 1 ≤ 25
      omega
    rw [Ne, hresolve]
    simp only [List.length_singleton, and_true, hshort, true_and]
    tauto
  · rw [h.open_several hfirst hsingle hpath]
    have hmany : (c :: cs).length ≠ 1 := by
      intro hone
      exact hsingle (List.length_eq_zero_iff.mp (Nat.succ.inj hone))
    rw [show maxDentryLength = 24 from rfl, hlen]
    constructor
    · rintro ⟨hres, hle, hne⟩
      exact .inr ⟨hres, by omega, hne⟩
    · rintro (⟨-, hone⟩ | ⟨hres, hle, hne⟩)
      · exact absurd hone hmany
      · exact ⟨hres, by omega, hne⟩

end Resolve

/-! ## A file in a directory -/

/-- Creating `/a`, and `b` in it. -/
def nested : Kernel FsState := do
  let s ← bootBlank
  let (p, s) ← newInodeOf s 0 plainEnv
  let (d, s) ← createDentry s .root ⟨1, [97]⟩ p plainEnv
  let d ← deref d "d"
  let (p, s) ← newInodeOf s 0 plainEnv
  let (_, s) ← createDentry s d ⟨1, [98]⟩ p plainEnv
  pure s

def recordOfA : Record := ⟨[97], by simp, by simp, by decide, 2, by decide, by decide, 32,
  plainLen_lt, 1, by decide⟩

def recordOfB : Record := ⟨[98], by simp, by simp, by decide, 3, by decide, by decide, 32,
  plainLen_lt, 1, by decide⟩

/-- The tree: directory 1 with `a`, directory 2 with `b`. -/
def nestedTree : DirTree
  | 1 => some [recordOfA]
  | 2 => some [recordOfB]
  | _ => none

/-- The file of `dir` is the one record `r`. -/
def Single (disk : Disk) (dir : Inode) (r : Record) : Prop :=
  dir.iSize = 32 ∧ ∀ j < 32, fileByte disk dir j = encodeEntry r.entry j

instance (disk : Disk) (dir : Inode) (r : Record) : Decidable (Single disk dir r) :=
  inferInstanceAs (Decidable (_ ∧ ∀ _ < 32, _))

theorem Single.listing {disk : Disk} {dir : Inode} {r : Record} (h : Single disk dir r) :
    Listing ⟨disk, dir⟩ [r] := by
  refine ⟨h.1, Nat.le_of_ble_eq_true rfl, fun i hi j hj => ?_, List.nodup_singleton _⟩
  obtain rfl : i = 0 := Nat.lt_one_iff.mp hi
  show fileByte disk dir (32 * 0 + j) = encodeEntry r.entry j
  rw [Nat.mul_zero, Nat.zero_add]
  exact h.2 j hj

instance (disk : Disk) (n : Nat) : Decidable (InodeBit disk n) :=
  inferInstanceAs (Decidable (BitAt _ _))

instance (disk : Disk) (n : Nat) : Decidable (Allocated disk n) :=
  inferInstanceAs (Decidable (_ ∧ _ ∧ _ ∧ _))

/-- `/a/b` as it stands in the caches. -/
def NestedCache (s : FsState) : Prop :=
  s.dentryList = [.obj 1, .obj 0, .root] ∧ s.vol.inodeList = [.obj 1, .obj 0, .root] ∧
    ((s.dentry .root).dParent = some .root ∧ (s.dentry .root).dName.toQStr = rootName.toQStr ∧
      (s.dentry .root).dInode = some .root ∧ 0 < (s.dentry .root).dRefcnt) ∧
    ((s.dentry (.obj 0)).dParent = some .root ∧ (s.dentry (.obj 0)).dName.toQStr = ⟨1, [97]⟩ ∧
      (s.dentry (.obj 0)).dInode = some (.obj 0)) ∧
    ((s.dentry (.obj 1)).dParent = some (.obj 0) ∧
      (s.dentry (.obj 1)).dName.toQStr = ⟨1, [98]⟩ ∧
      (s.dentry (.obj 1)).dInode = some (.obj 1)) ∧
    (s.vol.inode .root).iInum = 1 ∧ (s.vol.inode (.obj 0)).iInum = 2 ∧
    (s.vol.inode (.obj 1)).iInum = 3

/-- `/a/b` as it stands on the disk, and in the two directories in memory. -/
def NestedDisk (s : FsState) : Prop :=
  Allocated s.vol.disk 1 ∧ Allocated s.vol.disk 2 ∧ Allocated s.vol.disk 3 ∧
    Single s.vol.disk (s.vol.inode .root) recordOfA ∧
    Single s.vol.disk (s.vol.inode (.obj 0)) recordOfB ∧
    Single s.vol.disk (decode (s.vol.disk (inodeBlk 1)) (inodeOff 1) 0) recordOfA ∧
    Single s.vol.disk (decode (s.vol.disk (inodeBlk 2)) (inodeOff 2) 0) recordOfB

instance (s : FsState) : Decidable (NestedCache s) :=
  inferInstanceAs (Decidable (_ ∧ _ ∧ (_ ∧ _ ∧ _ ∧ _) ∧ (_ ∧ _ ∧ _) ∧ (_ ∧ _ ∧ _) ∧ _ ∧ _ ∧ _))

instance (s : FsState) : Decidable (NestedDisk s) :=
  inferInstanceAs (Decidable (_ ∧ _ ∧ _ ∧ _ ∧ _ ∧ _ ∧ _))

theorem nested_run : ∃ s, nested = .ok s ∧ NestedCache s ∧ NestedDisk s := by
  have hrun : (match nested with
      | .ok s => decide (NestedCache s ∧ NestedDisk s)
      | .error _ => false) = true := by decide +kernel
  split at hrun
  swap
  · cases hrun
  rename_i s hs
  exact ⟨s, hs, of_decide_eq_true hrun⟩

theorem component_a : Component [97] := by
  refine ⟨List.cons_ne_nil _ _, by decide, fun x hx => ?_⟩
  rw [List.mem_singleton.mp hx]
  decide

theorem component_b : Component [98] := by
  refine ⟨List.cons_ne_nil _ _, by decide, fun x hx => ?_⟩
  rw [List.mem_singleton.mp hx]
  decide

theorem NestedDisk.onDisk {s : FsState} (h : NestedDisk s) : OnDisk nestedTree s.vol.disk := by
  obtain ⟨hone, htwo, hthree, -, -, hroot, hdir⟩ := h
  have hcases : ∀ n es, nestedTree n = some es →
      (n = 1 ∧ es = [recordOfA]) ∨ n = 2 ∧ es = [recordOfB] := by
    intro n es hes
    unfold nestedTree at hes
    split at hes
    · exact .inl ⟨rfl, (Option.some.inj hes).symm⟩
    · exact .inr ⟨rfl, (Option.some.inj hes).symm⟩
    · cases hes
  refine ⟨nofun, fun n es hes => ?_, fun n es hes r hr => ?_⟩
  · obtain ⟨rfl, rfl⟩ | ⟨rfl, rfl⟩ := hcases n es hes
    · exact ⟨hone, hroot.listing⟩
    · exact ⟨htwo, hdir.listing⟩
  · obtain ⟨rfl, rfl⟩ | ⟨rfl, rfl⟩ := hcases n es hes
    · obtain rfl := List.mem_singleton.mp hr
      exact ⟨component_a, htwo⟩
    · obtain rfl := List.mem_singleton.mp hr
      exact ⟨component_b, hthree⟩

theorem nested_consistent {s : FsState} (hcache : NestedCache s) (hdisk : NestedDisk s) :
    Consistent nestedTree s := by
  have honDisk := hdisk.onDisk
  obtain ⟨hdentries, hinodes, ⟨hparent, hname, hinode, hcount⟩, ⟨haParent, haName, haInode⟩,
    ⟨hbParent, hbName, hbInode⟩, hroot, ha, hb⟩ := hcache
  obtain ⟨-, -, -, hrootFile, haFile, -, -⟩ := hdisk
  have hrootName : (s.dentry .root).dName = rootName := by
    cases hd : (s.dentry .root).dName
    rw [hd] at hname
    cases hname
    rfl
  refine ⟨honDisk, hparent, hrootName, hinode, hcount, ?_, hroot, ?_, ?_⟩
  · rw [hinodes]
    decide
  · intro p hp es hes
    rw [hinodes] at hp
    simp only [List.mem_cons, List.not_mem_nil, or_false] at hp
    rcases hp with rfl | rfl | rfl
    · rw [hb] at hes
      cases hes
    · rw [ha] at hes
      obtain rfl : [recordOfB] = es := Option.some.inj hes
      exact haFile.listing
    · rw [hroot] at hes
      obtain rfl : [recordOfA] = es := Option.some.inj hes
      exact hrootFile.listing
  · intro d hd hne _ parent hparent'
    rw [hdentries] at hd
    simp only [List.mem_cons, List.not_mem_nil, or_false] at hd
    rcases hd with rfl | rfl | rfl
    · obtain rfl := Option.some.inj (hbParent.symm.trans hparent')
      refine ⟨_, _, [98], haInode, hbInode, component_b, hbName, ?_⟩
      rw [ha, hb]
      rfl
    · obtain rfl := Option.some.inj (haParent.symm.trans hparent')
      refine ⟨_, _, [97], hinode, haInode, component_a, haName, ?_⟩
      rw [hroot, ha]
      rfl
    · exact absurd rfl hne

/-- The path `/a/b`. -/
def pathAb : Pathname := ⟨[slash, 97, slash, 98], by simp [slash]⟩

theorem nested_fresh {s : FsState} (h : NestedCache s) : Fresh s plainEnv := by
  obtain ⟨hdentries, hinodes, -⟩ := h
  constructor
  · rw [hinodes]
    decide
  · rw [hdentries]
    decide

theorem components_ab : ∀ c ∈ [[97], [98]], Component c := by
  intro c hc
  simp only [List.mem_cons, List.not_mem_nil, or_false] at hc
  rcases hc with rfl | rfl
  · exact component_a
  · exact component_b

theorem open_resolves_iff_ab : ∃ s, nested = .ok s ∧
    (OpensTo nestedTree [[97], [98]] (openPath s pathAb plainEnv) ↔
      (resolve nestedTree 1 [[97], [98]] ≠ none ∧ [[97], [98]].length = 1) ∨
        resolve nestedTree 1 [[97], [98]] = none ∧ pathAb.chars.length ≤ 25 ∧
          (s.dentry .root).dRefcnt ≠ 2) := by
  obtain ⟨s, hs, hcache, hdisk⟩ := nested_run
  exact ⟨s, hs, open_resolves_iff (nested_consistent hcache hdisk) (nested_fresh hcache)
    (List.cons_ne_nil _ _) components_ab rfl⟩

/-- `/a/b` exists and both of its dentries are cached, but _open does not return it. -/
theorem nested_not_opened : ∃ s, nested = .ok s ∧ Consistent nestedTree s ∧ Fresh s plainEnv ∧
    (∀ c ∈ [[97], [98]], Component c) ∧ pathAb.chars = pathChars [[97], [98]] ∧
    resolve nestedTree 1 [[97], [98]] = some 3 ∧
    ¬OpensTo nestedTree [[97], [98]] (openPath s pathAb plainEnv) := by
  obtain ⟨s, hs, hcache, hdisk⟩ := nested_run
  have hconsistent := nested_consistent hcache hdisk
  refine ⟨s, hs, hconsistent, nested_fresh hcache, components_ab, rfl, rfl, fun hto => ?_⟩
  have hchars : pathAb.chars = pathChars ([97] :: [[98]]) := rfl
  have hcond := (hconsistent.open_several component_a (List.cons_ne_nil _ _) hchars).mp hto
  cases hcond.1

end RxdOs.Fs.PathResolution
