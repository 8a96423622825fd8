/- RxdOs/Fs/DentryCache
   source: fs/fs.c (__dlink_inode to _opendir, fs_init), include/fs.h
   digest: The dentry cache: looking a name up, creating, putting and closing dentries, and
   the two path walks. -/

import RxdOs.Base.ListHead
import RxdOs.Fs.Dir
import RxdOs.Fs.InodeCache

set_option autoImplicit false
set_option relaxedAutoImplicit false

namespace RxdOs.Fs.DentryCache

open RxdOs.Base.Assert RxdOs.Base.Int32 RxdOs.Base.ListHead RxdOs.Fs.Bitmap RxdOs.Fs.Layout RxdOs.Fs.Zone
  RxdOs.Fs.InodeCache RxdOs.Fs.Name RxdOs.Fs.Dir

/-- A `struct dentry *`: the static root_dentry, or an object of dentry_cache. -/
inductive DentryPtr
  | root
  | obj (addr : Nat)
  deriving DecidableEq

/-- The name of a dentry: its buffer is cleared before strncpy fills it. -/
structure DName extends QStr where
  ends : charAt name len = 0

/-- `struct dentry`; its list links are kept by the lists themselves.  The count does not wrap:
only sys_open adds to it, a few times for each of the 4095 characters of a path at most, and every
call keeps a page for its path, of which there are 3840. -/
structure Dentry where
  dParent : Option DentryPtr
  dName : DName
  dInode : Option InodePtr
  dRefcnt : Int

/-- `struct file` -/
structure File where
  fFlags : UInt32
  fMode : Nat
  fPos : Int
  fRefcnt : Int
  fDentry : Option DentryPtr

/-- The list nodes of the alias lists; `wild` is any other address a link may hold. -/
inductive Node
  | head (p : InodePtr)
  | alias (d : DentryPtr)
  | wild (addr : Nat)
  deriving DecidableEq

abbrev nrMaxOpen : Nat := 10

instance : NeZero nrMaxOpen := ⟨by decide⟩

/-- The caches, and the descriptor table of current_task.  The objects of dentry_cache that
are handed out are the ones on dentry_list; freed objects keep their bytes. -/
structure FsState where
  vol : Volume
  dentry : DentryPtr → Dentry
  dentryList : List DentryPtr
  links : Links Node
  file : Nat → File
  files : List Nat
  filp : Fin nrMaxOpen → Option Nat

/-- What a call finds around it: the objects the slab caches hand out when these are in use,
the bytes of the pointer fields of each inode, and the stack slot of de.inode. -/
structure Env where
  inodeAt : List InodePtr → Nat
  dentryAt : List DentryPtr → Nat
  fileAt : List Nat → Nat
  ptrs : Nat → Pointers
  deInode : Nat

def FsState.setDentry (s : FsState) (d : DentryPtr) (dentry : Dentry) : FsState :=
  { s with dentry := Function.update s.dentry d dentry }

def FsState.setFile (s : FsState) (f : Nat) (file : File) : FsState :=
  { s with file := Function.update s.file f file }

/-- The value behind a pointer that may be NULL. -/
def deref {α : Type} (ptr : Option α) (what : String) : Kernel α :=
  match ptr with
  | some a => pure a
  | none => .error (.fault what)

/-- `d_refcnt += n` -/
def addRef (s : FsState) (d : DentryPtr) (n : Int) : FsState :=
  s.setDentry d { s.dentry d with dRefcnt := (s.dentry d).dRefcnt + n }

/-- `i_refcnt += n` -/
def addInodeRef (s : FsState) (p : InodePtr) (n : Int) : FsState :=
  { s with vol := s.vol.setInode p { s.vol.inode p with iRefcnt := (s.vol.inode p).iRefcnt + n } }

/-- __dlink_inode -/
def dlinkInode (s : FsState) (dentry : DentryPtr) (inode : InodePtr) : FsState :=
  let s := s.setDentry dentry { s.dentry dentry with dInode := some inode }
  let s := addRef s dentry 1
  let s := { s with links := listAdd s.links (.alias dentry) (.head inode) }
  addInodeRef s inode 1

/-- __dunlink_inode -/
def dunlinkInode (s : FsState) (dentry : DentryPtr) : Kernel FsState := do
  let s := { s with links := listDel s.links (.alias dentry) }
  let inode ← deref (s.dentry dentry).dInode "--(dentry->d_inode->i_refcnt)"
  let s := addInodeRef s inode (-1)
  let s := s.setDentry dentry { s.dentry dentry with dInode := none }
  pure (addRef s dentry (-1))

/-- __dlink_parent -/
def dlinkParent (s : FsState) (dentry parent : DentryPtr) : FsState :=
  let s := s.setDentry dentry { s.dentry dentry with dParent := some parent }
  let s := addRef s dentry 1
  addRef s parent 1

/-- __dunlink_parent -/
def dunlinkParent (s : FsState) (dentry : DentryPtr) : Kernel FsState := do
  let parent ← deref (s.dentry dentry).dParent "--(dentry->d_parent->d_refcnt)"
  let s := addRef s parent (-1)
  let s := s.setDentry dentry { s.dentry dentry with dParent := none }
  pure (addRef s dentry (-1))

/-- kmem_cache_alloc(dentry_cache), with the object it happens to return. -/
def allocDentry (s : FsState) (env : Env) : Kernel DentryPtr := do
  access (.obj (env.dentryAt s.dentryList) ∉ s.dentryList) "kmem_cache_alloc(dentry_cache)"
  pure (.obj (env.dentryAt s.dentryList))

theorem charAt_takeWhile {str : CStr} {num : Nat} (h : strlen str ≤ num) :
    charAt (str.takeWhile (· ≠ 0)) num = 0 := charAt_of_le h

/-- `memset(name, 0, MAX_DENTRY_LENGTH); strncpy(name, dname->name, dname->len)` -/
def copyName (dname : QStr) : Kernel DName :=
  if h : strlen dname.name ≤ dname.len then
    pure ⟨⟨dname.len, dname.name.takeWhile (· ≠ 0)⟩, charAt_takeWhile h⟩
  else .error (.fault "while (num--) *(p++) = '\\0'")

/-- The second half of get_dentry and create_dentry: a named dentry object is put on
dentry_list and linked to its parent and its inode. -/
def addDentry (s : FsState) (dentry parent : DentryPtr) (dName : DName) (inode : InodePtr) :
    FsState :=
  let s := s.setDentry dentry { s.dentry dentry with dName := dName, dRefcnt := 0 }
  let s := { s with dentryList := dentry :: s.dentryList }
  dlinkInode (dlinkParent s dentry parent) dentry inode

/-- The search of get_dentry through dentry_list. -/
def findDentry (s : FsState) (parent : DentryPtr) (dname : QStr) : Option DentryPtr :=
  s.dentryList.find? fun d => qstrcmp (s.dentry d).dName.toQStr dname = 0 ∧
    (s.dentry d).dRefcnt ≠ 0 ∧ (s.dentry d).dParent = some parent

/-- The entry get_dentry searches for; its inode field is never set. -/
def lookupEntry (dname : QStr) (env : Env) : Kernel DirEntry := do
  let name ← strncpy dname.name maxDentryLength
  pure ⟨env.deInode, 0, dname.len, 0, name⟩

def getDentry (s : FsState) (parent : DentryPtr) (dname : QStr) (env : Env) :
    Kernel (Option DentryPtr × FsState) := do
  let dir ← deref (s.dentry parent).dInode "dir->i_super"
  match findDentry s parent dname with
  | some d => pure (some d, addRef s d 1)
  | none =>
    assert (dname.len < maxDentryLength) "dname->len < MAX_DENTRY_LENGTH"
    let target ← lookupEntry dname env
    let (pos, de) ← findDirEntry s.vol.disk (s.vol.inode dir) target
    if pos < 0 then pure (none, s)
    else do
      let (inode, vol) ← getInode s.vol de.inode (env.inodeAt s.vol.inodeList)
      let s := { s with vol := vol }
      let dentry ← allocDentry s env
      let dName ← copyName dname
      pure (some dentry, addDentry s dentry parent dName inode)

/-- create_inode, which also initialises i_dentry. -/
def newInodeOf (s : FsState) (mode : Nat) (env : Env) : Kernel (InodePtr × FsState) := do
  let (p, vol) ← createInode s.vol mode (env.inodeAt s.vol.inodeList) (env.ptrs 0)
  pure (p, { s with vol := vol, links := initListHead s.links (.head p) })

/-- `++(inode->i_nlink); write_inode(inode)` -/
def countLink (s : FsState) (p : InodePtr) (env : Env) : Kernel FsState := do
  let inode := { s.vol.inode p with iNlink := wrapShort ((s.vol.inode p).iNlink + 1) }
  let disk ← writeInode s.vol.disk inode (env.ptrs 2)
  pure { s with vol := { s.vol.setInode p inode with disk := disk } }

def createDentry (s : FsState) (parent : DentryPtr) (dname : QStr) (inode : InodePtr) (env : Env) :
    Kernel (Option DentryPtr × FsState) := do
  let (old, s) ← getDentry s parent dname env
  if old.isSome then pure (none, s)
  else do
    let dir ← deref (s.dentry parent).dInode "parent->d_inode"
    assert (dname.len < maxDentryLength) "dname->len < MAX_DENTRY_LENGTH"
    let name ← strncpy dname.name maxDentryLength
    -- the result of _add_dir_entry is not looked at
    let (_, disk, dirInode) ← addDirEntry s.vol.disk (s.vol.inode dir)
      ⟨(s.vol.inode inode).iInum, 32, dname.len, ftRegFile, name⟩ (env.ptrs 1)
    let s := { s with vol := { s.vol.setInode dir dirInode with disk := disk } }
    let dentry ← allocDentry s env
    let dName ← copyName dname
    let s := addDentry s dentry parent dName inode
    let s ← countLink s inode env
    pure (some dentry, s)

/-- put_inode; the alias list is only looked at when the inode is deleted. -/
def putInodeOf (s : FsState) (p : InodePtr) (env : Env) : Kernel FsState := do
  assert ((s.vol.inode p).iRefcnt = 1 → (s.vol.inode p).iNlink = 0 → listEmpty s.links (.head p))
    "list_empty(&inode->i_dentry) && inode != &root_inode"
  let vol ← putInode s.vol p (env.ptrs 3)
  pure { s with vol := vol }

def putDentry (s : FsState) (dentry : DentryPtr) (env : Env) : Kernel FsState := do
  assert ((s.dentry dentry).dRefcnt > 0) "dentry && dentry->d_refcnt > 0"
  let inode := (s.dentry dentry).dInode
  let s ← dunlinkParent s dentry
  let s ← dunlinkInode s dentry
  if (s.dentry dentry).dRefcnt = 0 then
    let inode ← deref inode "inode && inode->i_refcnt > 0"
    let s ← putInodeOf s inode env
    -- root_dentry lies in no slab, and neither does its name
    access (dentry ≠ .root) "kmem_cache_free(dentry_cache, dentry)"
    pure { s with dentryList := s.dentryList.erase dentry }
  else pure s

/-- The loop of _close from `dentry` up; each round clears one d_parent. -/
def closeUp (env : Env) : Nat → FsState → DentryPtr → Kernel FsState
  | 0, _, _ => .error (.fault "while (dentry != &root_dentry)")
  | fuel + 1, s, dentry =>
    if dentry = .root then pure s
    else do
      let parent := (s.dentry dentry).dParent
      let s ← putDentry s dentry env
      let parent ← deref parent "dentry->d_parent"
      closeUp env fuel s parent

/-- _close; a dentry that was freed is read once more. -/
def close (s : FsState) (dentry : DentryPtr) (env : Env) : Kernel FsState := do
  let parent := (s.dentry dentry).dParent
  let n := s.dentryList.length
  let s ← putDentry s dentry env
  if (s.dentry dentry).dRefcnt = 0 then do
    let parent ← deref parent "dentry->d_parent"
    closeUp env (n + 1) s parent
  else pure s

/-- The body of path_for_each in _open and path_for_each_dir in _opendir; `more` is the
condition the iterator goes on under. -/
def walk (more : QStr → Bool) (env : Env) : Nat → FsState → DentryPtr → QStr →
    Kernel (Option DentryPtr × FsState)
  | 0, _, _, _ => .error (.fault "path_for_each(&dname, path)")
  | fuel + 1, s, dentry, dname =>
    if more dname then do
      let (child, s) ← getDentry s dentry dname env
      match child with
      | none => do
        let s ← close s dentry env
        pure (none, s)
      | some child => walk more env fuel s child (pathNext dname)
    else pure (some dentry, s)

/-- What _open and _opendir share. -/
def walkPath (more : QStr → Bool) (s : FsState) (path : Pathname) (env : Env) :
    Kernel (Option DentryPtr × FsState) := do
  assert (charAt path.chars 0 = slash) "*path == '/'"
  let s := addRef s .root 1
  let path := path.chars.drop 1
  -- every component after the first takes a character of the path
  walk more env (path.length + 2) s .root (pathFirst path)

/-- `*(dname)->name` -/
def moreComponents (dname : QStr) : Bool := charAt dname.name 0 ≠ 0

/-- `*((dname)->name + (dname)->len)` -/
def moreDirs (dname : QStr) : Bool := charAt dname.name dname.len ≠ 0

def openPath (s : FsState) (path : Pathname) (env : Env) : Kernel (Option DentryPtr × FsState) :=
  walkPath moreComponents s path env

def opendir (s : FsState) (path : Pathname) (env : Env) : Kernel (Option DentryPtr × FsState) :=
  walkPath moreDirs s path env

/-! ## Starting up -/

/-- The name of root_dentry. -/
def rootName : DName := ⟨⟨1, [slash]⟩, rfl⟩

def superMagic : Nat := 0x12345678

/-- The super block has the layout mkfs gives it. -/
def KnownSuper (disk : Disk) : Prop := ∀ i < 36, byteAt (disk 1) i = superRecord i

instance (disk : Disk) : Decidable (KnownSuper disk) := inferInstanceAs (Decidable (∀ _ < 36, _))

/-- A disk without a file system gets one. -/
def formatted (disk : Disk) (ptrs : Pointers) : Kernel Disk :=
  if wordAt (byteAt (disk 1)) 0 4 = superMagic then pure disk else mkfs disk ptrs

/-- fs_init on a disk, with what memory holds before; descriptor tables start empty. -/
def fsInit (memory : FsState) (disk : Disk) (ptrs : Pointers) : Kernel FsState := do
  let disk ← formatted disk ptrs
  access (KnownSuper disk) "super"
  let inode ← readInode disk (memory.vol.inode .root) 1
  let links := initListHead (initListHead memory.links (.head .root)) (.alias .root)
  let s : FsState := { memory with
    vol := ⟨disk, Function.update memory.vol.inode .root { inode with iRefcnt := 0 }, [.root]⟩
    dentry := Function.update memory.dentry .root ⟨some .root, rootName, none, 0⟩
    dentryList := [.root]
    links := links
    files := []
    filp := fun _ => none }
  pure (dlinkInode s .root .root)

/-! ## Linking and unlinking -/

section Links

variable {s : FsState} {d parent x : DentryPtr} {p q : InodePtr} {dName : DName}

@[simp] theorem addRef_self (n : Int) :
    (addRef s d n).dentry d = { s.dentry d with dRefcnt := (s.dentry d).dRefcnt + n } :=
  Function.update_self ..

theorem addRef_of_ne (n : Int) (h : x ≠ d) : (addRef s d n).dentry x = s.dentry x :=
  Function.update_of_ne h ..

theorem addRef_dentry (n : Int) (x : DentryPtr) : (addRef s d n).dentry x =
    { s.dentry x with dRefcnt := (s.dentry x).dRefcnt + if x = d then n else 0 } := by
  by_cases h : x = d
  · rw [h, addRef_self, if_pos rfl]
  · rw [addRef_of_ne n h, if_neg h, Int.add_zero]

theorem addInodeRef_inode (n : Int) (q : InodePtr) : (addInodeRef s p n).vol.inode q =
    { s.vol.inode q with iRefcnt := (s.vol.inode q).iRefcnt + if q = p then n else 0 } := by
  by_cases h : q = p
  · rw [h, if_pos rfl]
    exact Function.update_self ..
  · rw [if_neg h, Int.add_zero]
    exact Function.update_of_ne h ..

theorem addDentry_self (h : d ≠ parent) :
    (addDentry s d parent dName p).dentry d = ⟨some parent, dName, some p, 2⟩ := by
  simp [addDentry, dlinkInode, dlinkParent, addRef, addInodeRef, FsState.setDentry, h]

theorem addDentry_of_ne (hd : d ≠ parent) (h : x ≠ d) :
    (addDentry s d parent dName p).dentry x =
      { s.dentry x with dRefcnt := (s.dentry x).dRefcnt + if x = parent then 1 else 0 } := by
  by_cases hx : x = parent
  · subst hx
    simp [addDentry, dlinkInode, dlinkParent, addRef, addInodeRef, FsState.setDentry, h]
  · simp [addDentry, dlinkInode, dlinkParent, addRef, addInodeRef, FsState.setDentry, h, hx]

theorem addDentry_inode (q : InodePtr) : (addDentry s d parent dName p).vol.inode q =
    { s.vol.inode q with iRefcnt := (s.vol.inode q).iRefcnt + if q = p then 1 else 0 } :=
  addInodeRef_inode 1 q

/-- A dentry after both links are gone, and the rest of the caches with it. -/
def unlinkDentry (s : FsState) (d parent : DentryPtr) (p : InodePtr) : FsState :=
  let s := addRef s parent (-1)
  let s := s.setDentry d { s.dentry d with dParent := none }
  let s := addRef s d (-1)
  let s := { s with links := listDel s.links (.alias d) }
  let s := addInodeRef s p (-1)
  let s := s.setDentry d { s.dentry d with dInode := none }
  addRef s d (-1)

theorem unlinkDentry_self : (unlinkDentry s d parent p).dentry d =
    { s.dentry d with
      dParent := none
      dInode := none
      dRefcnt := (s.dentry d).dRefcnt - if parent = d then 3 else 2 } := by
  by_cases h : d = parent
  · subst h
    simp [unlinkDentry, addRef, addInodeRef, FsState.setDentry]
    ring
  · simp [unlinkDentry, addRef, addInodeRef, FsState.setDentry, h, Ne.symm h]
    ring

theorem unlinkDentry_of_ne (h : x ≠ d) : (unlinkDentry s d parent p).dentry x =
    { s.dentry x with dRefcnt := (s.dentry x).dRefcnt - if x = parent then 1 else 0 } := by
  by_cases hx : x = parent
  · subst hx
    simp [unlinkDentry, addRef, addInodeRef, FsState.setDentry, h]
    ring
  · simp [unlinkDentry, addRef, addInodeRef, FsState.setDentry, h, hx]

theorem unlinkDentry_inode (q : InodePtr) : (unlinkDentry s d parent p).vol.inode q =
    { s.vol.inode q with iRefcnt := (s.vol.inode q).iRefcnt - if q = p then 1 else 0 } := by
  by_cases h : q = p
  · subst h
    simp [unlinkDentry, addRef, addInodeRef, FsState.setDentry, Volume.setInode]
    ring
  · simp [unlinkDentry, addRef, addInodeRef, FsState.setDentry, Volume.setInode, h]

end Links

/-! ## Looking up, putting and closing -/

variable {s s' : FsState} {env : Env}

@[simp] theorem deref_eq_ok {α : Type} {ptr : Option α} {what : String} {a : α} :
    deref ptr what = .ok a ↔ ptr = some a := by
  cases ptr with
  | some b => simp [deref]
  | none => simp [deref]

theorem allocDentry_ok {d : DentryPtr} (h : allocDentry s env = .ok d) :
    d = .obj (env.dentryAt s.dentryList) ∧ d ∉ s.dentryList := by
  simp only [allocDentry, bind_eq_ok, access_eq_ok, pure_eq_ok, Except.ok.injEq] at h
  obtain ⟨_, hfresh, rfl⟩ := h
  exact ⟨rfl, hfresh⟩

theorem copyName_ok {dname : QStr} {dName : DName} (h : copyName dname = .ok dName) :
    strlen dname.name ≤ dname.len ∧ dName.len = dname.len ∧
      dName.name = dname.name.takeWhile (· ≠ 0) := by
  unfold copyName at h
  split_ifs at h with hle
  simp only [pure_eq_ok, Except.ok.injEq] at h
  subst h
  exact ⟨hle, rfl, rfl⟩

theorem findDentry_some {parent d : DentryPtr} {dname : QStr}
    (h : findDentry s parent dname = some d) : d ∈ s.dentryList ∧
      qstrcmp (s.dentry d).dName.toQStr dname = 0 ∧ (s.dentry d).dRefcnt ≠ 0 ∧
      (s.dentry d).dParent = some parent := by
  have hprop := List.find?_some h
  exact ⟨List.mem_of_find?_eq_some h, by simpa using hprop⟩

/-- What the directory says about a name that is not cached: the position and the number. -/
def lookupDisk (s : FsState) (dir : InodePtr) (dname : QStr) (env : Env) : Kernel (Int × Nat) := do
  assert (dname.len < maxDentryLength) "dname->len < MAX_DENTRY_LENGTH"
  let target ← lookupEntry dname env
  let (pos, de) ← findDirEntry s.vol.disk (s.vol.inode dir) target
  pure (pos, de.inode)

/-- get_dentry finds a cached dentry, finds nothing, or reads a dentry in. -/
theorem getDentry_ok {parent : DentryPtr} {dname : QStr} {r : Option DentryPtr}
    (h : getDentry s parent dname env = .ok (r, s')) :
    ∃ dir, (s.dentry parent).dInode = some dir ∧
      ((∃ d, findDentry s parent dname = some d ∧ r = some d ∧ s' = addRef s d 1) ∨
        findDentry s parent dname = none ∧ ∃ pos inum,
          lookupDisk s dir dname env = .ok (pos, inum) ∧
          ((pos < 0 ∧ r = none ∧ s' = s) ∨
            0 ≤ pos ∧ ∃ inode vol d dName,
              getInode s.vol inum (env.inodeAt s.vol.inodeList) = .ok (inode, vol) ∧
              d = .obj (env.dentryAt s.dentryList) ∧ d ∉ s.dentryList ∧
              copyName dname = .ok dName ∧ r = some d ∧
              s' = addDentry { s with vol := vol } d parent dName inode)) := by
  simp only [getDentry, bind_eq_ok, deref_eq_ok] at h
  obtain ⟨dir, hdir, h⟩ := h
  refine ⟨dir, hdir, ?_⟩
  cases hfind : findDentry s parent dname with
  | some d =>
    rw [hfind] at h
    simp only [pure_eq_ok, Except.ok.injEq, Prod.mk.injEq] at h
    obtain ⟨rfl, rfl⟩ := h
    exact .inl ⟨d, rfl, rfl, rfl⟩
  | none =>
    rw [hfind] at h
    simp only [bind_eq_ok, assert_eq_ok] at h
    obtain ⟨_, hlen, target, htarget, ⟨pos, de⟩, hentry, h⟩ := h
    refine .inr ⟨rfl, pos, de.inode, ?_, ?_⟩
    · simp only [lookupDisk, bind_eq_ok, assert_eq_ok]
      exact ⟨(), hlen, target, htarget, (pos, de), hentry, rfl⟩
    split_ifs at h with hpos
    · simp only [pure_eq_ok, Except.ok.injEq, Prod.mk.injEq] at h
      obtain ⟨rfl, rfl⟩ := h
      exact .inl ⟨hpos, rfl, rfl⟩
    · simp only [bind_eq_ok, pure_eq_ok, Except.ok.injEq, Prod.mk.injEq] at h
      obtain ⟨⟨inode, vol⟩, hinode, d, halloc, dName, hname, rfl, rfl⟩ := h
      obtain ⟨hd, hfresh⟩ := allocDentry_ok halloc
      exact .inr ⟨not_lt.mp hpos, inode, vol, d, dName, hinode, hd, hfresh, hname, rfl, rfl⟩

/-- A name that get_dentry finds ends after its `len` characters. -/
theorem strlen_le_of_getDentry {parent d : DentryPtr} {dname : QStr}
    (h : getDentry s parent dname env = .ok (some d, s')) (hlen : dname.len ≠ 0) :
    strlen dname.name ≤ dname.len := by
  obtain ⟨dir, -, ⟨d', hfind, -, -⟩ | ⟨-, pos, inum, -, hrest⟩⟩ := getDentry_ok h
  · obtain ⟨-, hcmp, -, -⟩ := findDentry_some hfind
    exact strlen_le_of_qstrcmp hcmp (s.dentry d').dName.ends hlen
  · obtain ⟨-, hnone, -⟩ | ⟨-, inode, vol, d', dName, -, -, -, hname, -, -⟩ := hrest
    · cases hnone
    · exact (copyName_ok hname).1

/-- A lookup that finds nothing leaves the caches as they were. -/
theorem getDentry_none {parent : DentryPtr} {dname : QStr}
    (h : getDentry s parent dname env = .ok (none, s')) : s' = s := by
  obtain ⟨dir, -, ⟨d, -, hr, -⟩ | ⟨-, pos, inum, -, hrest⟩⟩ := getDentry_ok h
  · cases hr
  · obtain ⟨-, -, rfl⟩ | ⟨-, inode, vol, d, dName, -, -, -, -, hr, -⟩ := hrest
    · rfl
    · cases hr

theorem putInodeOf_ok {p : InodePtr} (h : putInodeOf s p env = .ok s') :
    ∃ vol, putInode s.vol p (env.ptrs 3) = .ok vol ∧ s' = { s with vol := vol } := by
  simp only [putInodeOf, bind_eq_ok, assert_eq_ok, pure_eq_ok, Except.ok.injEq] at h
  obtain ⟨_, -, vol, hvol, rfl⟩ := h
  exact ⟨vol, hvol, rfl⟩

/-- put_dentry always unlinks; the last reference also takes the dentry off the list. -/
theorem putDentry_ok {d : DentryPtr} (h : putDentry s d env = .ok s') :
    0 < (s.dentry d).dRefcnt ∧ ∃ parent p, (s.dentry d).dParent = some parent ∧
      (s.dentry d).dInode = some p ∧
      (((s.dentry d).dRefcnt - (if parent = d then 3 else 2) ≠ 0 ∧
          s' = unlinkDentry s d parent p) ∨
        (s.dentry d).dRefcnt - (if parent = d then 3 else 2) = 0 ∧ d ≠ .root ∧ ∃ vol,
          putInode (unlinkDentry s d parent p).vol p (env.ptrs 3) = .ok vol ∧
          s' = { unlinkDentry s d parent p with
            vol := vol
            dentryList := s.dentryList.erase d }) := by
  simp only [putDentry, bind_eq_ok, assert_eq_ok] at h
  obtain ⟨_, hpos, s₁, hunparent, s₂, huninode, h⟩ := h
  simp only [dunlinkParent, bind_eq_ok, deref_eq_ok, pure_eq_ok, Except.ok.injEq] at hunparent
  obtain ⟨parent, hparent, rfl⟩ := hunparent
  simp only [dunlinkInode, bind_eq_ok, deref_eq_ok, pure_eq_ok, Except.ok.injEq] at huninode
  obtain ⟨p, hp, rfl⟩ := huninode
  have hinode : (s.dentry d).dInode = some p := by
    rw [← hp]
    by_cases hd : d = parent
    · simp [addRef, FsState.setDentry, hd]
    · simp [addRef, FsState.setDentry, hd]
  refine ⟨hpos, parent, p, hparent, hinode, ?_⟩
  have hleft : ((unlinkDentry s d parent p).dentry d).dRefcnt =
      (s.dentry d).dRefcnt - (if parent = d then 3 else 2) := by
    rw [unlinkDentry_self]
  rw [hinode] at h
  split_ifs at h with hzero
  · refine .inr ⟨hleft ▸ hzero, ?_⟩
    simp only [bind_eq_ok, deref_eq_ok, access_eq_ok, pure_eq_ok, Except.ok.injEq] at h
    obtain ⟨q, hq, s₃, hput, _, hroot, rfl⟩ := h
    obtain rfl : p = q := Option.some.inj hq
    obtain ⟨vol, hvol, rfl⟩ := putInodeOf_ok hput
    exact ⟨hroot, vol, hvol, rfl⟩
  · simp only [pure_eq_ok, Except.ok.injEq] at h
    exact .inl ⟨hleft ▸ hzero, h.symm⟩

/-- Below root_dentry, _close is put_dentry. -/
theorem close_eq_putDentry {d : DentryPtr} (h : (s.dentry d).dParent = some .root) :
    close s d env = putDentry s d env := by
  simp only [close, h]
  cases hput : putDentry s d env with
  | error e => rfl
  | ok s₁ =>
    simp only [ok_bind]
    split_ifs
    · simp [deref, closeUp]
    · rfl

theorem createDentry_ok {parent : DentryPtr} {dname : QStr} {inode : InodePtr}
    {r : Option DentryPtr} (h : createDentry s parent dname inode env = .ok (r, s')) :
    (∃ d, getDentry s parent dname env = .ok (some d, s') ∧ r = none) ∨
      getDentry s parent dname env = .ok (none, s) ∧ ∃ dir name ret disk dirInode d dName,
        (s.dentry parent).dInode = some dir ∧
        strncpy dname.name maxDentryLength = .ok name ∧
        addDirEntry s.vol.disk (s.vol.inode dir)
          ⟨(s.vol.inode inode).iInum, 32, dname.len, ftRegFile, name⟩ (env.ptrs 1) =
            .ok (ret, disk, dirInode) ∧
        d = .obj (env.dentryAt s.dentryList) ∧ d ∉ s.dentryList ∧
        copyName dname = .ok dName ∧ r = some d ∧
        countLink (addDentry { s with vol := { s.vol.setInode dir dirInode with disk := disk } } d
          parent dName inode) inode env = .ok s' := by
  simp only [createDentry, bind_eq_ok] at h
  obtain ⟨⟨old, s₁⟩, hget, h⟩ := h
  cases old with
  | some d =>
    simp only [Option.isSome_some, if_true, pure_eq_ok, Except.ok.injEq, Prod.mk.injEq] at h
    obtain ⟨rfl, rfl⟩ := h
    exact .inl ⟨d, hget, rfl⟩
  | none =>
    obtain rfl := getDentry_none hget
    simp only [Option.isSome_none, Bool.false_eq_true, if_false, bind_eq_ok, deref_eq_ok,
      assert_eq_ok, pure_eq_ok, Except.ok.injEq, Prod.mk.injEq] at h
    obtain ⟨dir, hdir, _, -, name, hname, ⟨ret, disk, dirInode⟩, hadd, d, halloc, dName, hcopy,
      s₂, hcount, rfl, rfl⟩ := h
    obtain ⟨hd, hfresh⟩ := allocDentry_ok halloc
    exact .inr ⟨hget, dir, name, ret, disk, dirInode, d, dName, hdir, hname, hadd, hd, hfresh,
      hcopy, rfl, hcount⟩

theorem countLink_ok {p : InodePtr} (h : countLink s p env = .ok s') :
    ∃ disk, writeInode s.vol.disk { s.vol.inode p with
        iNlink := wrapShort ((s.vol.inode p).iNlink + 1) } (env.ptrs 2) = .ok disk ∧
      s' = { s with vol := { s.vol.setInode p { s.vol.inode p with
        iNlink := wrapShort ((s.vol.inode p).iNlink + 1) } with disk := disk } } := by
  simp only [countLink, bind_eq_ok, pure_eq_ok, Except.ok.injEq] at h
  obtain ⟨disk, hrec, rfl⟩ := h
  exact ⟨disk, hrec, rfl⟩

/-! ## The two walks -/

/-- A walk stops at once, or its first component is not found, or it goes on from there. -/
theorem walk_cases {more : QStr → Bool} {fuel : Nat} {d : DentryPtr} {dname : QStr}
    {r : Option DentryPtr} (h : walk more env (fuel + 1) s d dname = .ok (r, s')) :
    (more dname = false ∧ r = some d ∧ s' = s) ∨
      more dname = true ∧ ((getDentry s d dname env = .ok (none, s) ∧ close s d env = .ok s' ∧
          r = none) ∨
        ∃ child s₁, getDentry s d dname env = .ok (some child, s₁) ∧
          walk more env fuel s₁ child (pathNext dname) = .ok (r, s')) := by
  simp only [walk] at h
  split_ifs at h with hmore
  · refine .inr ⟨hmore, ?_⟩
    simp only [bind_eq_ok] at h
    obtain ⟨⟨child, s₁⟩, hget, h⟩ := h
    cases child with
    | none =>
      obtain rfl := getDentry_none hget
      simp only [bind_eq_ok, pure_eq_ok, Except.ok.injEq, Prod.mk.injEq] at h
      obtain ⟨s₂, hclose, rfl, rfl⟩ := h
      exact .inl ⟨hget, hclose, rfl⟩
    | some child => exact .inr ⟨child, s₁, hget, h⟩
  · simp only [pure_eq_ok, Except.ok.injEq, Prod.mk.injEq] at h
    obtain ⟨rfl, rfl⟩ := h
    exact .inl ⟨by simpa using hmore, rfl, rfl⟩

/-- The path after its leading slash. -/
def rest (path : Pathname) : CStr := path.chars.drop 1

theorem walkPath_ok {more : QStr → Bool} {path : Pathname} {r : Option DentryPtr}
    (h : walkPath more s path env = .ok (r, s')) : charAt path.chars 0 = slash ∧
      walk more env ((rest path).length + 2) (addRef s .root 1) .root
        (pathFirst (rest path)) = .ok (r, s') := by
  simp only [walkPath, bind_eq_ok, assert_eq_ok] at h
  obtain ⟨_, hslash, h⟩ := h
  exact ⟨hslash, h⟩

theorem rest_noNul (path : Pathname) : ∀ c ∈ rest path, c ≠ 0 := fun c hc =>
  path.noNul c (List.mem_of_mem_drop hc)

/-- A first component that get_dentry finds is all of the path. -/
theorem whole_of_getDentry {path : Pathname} {d : DentryPtr} (hne : rest path ≠ [])
    (h : getDentry s .root (pathFirst (rest path)) env = .ok (some d, s')) :
    (pathFirst (rest path)).len = (rest path).length :=
  pathFirst_whole (rest_noNul path) hne (strlen_le_of_getDentry h (pathFirst_len_pos _))

/-- _opendir gets to no component but root_dentry itself: the name it passes to get_dentry goes
on after its `len` characters. -/
theorem opendir_ok {path : Pathname} {r : Option DentryPtr}
    (h : opendir s path env = .ok (r, s')) : charAt path.chars 0 = slash ∧
      ((moreDirs (pathFirst (rest path)) = false ∧ r = some .root ∧ s' = addRef s .root 1) ∨
        moreDirs (pathFirst (rest path)) = true ∧ r = none ∧
          getDentry (addRef s .root 1) .root (pathFirst (rest path)) env =
            .ok (none, addRef s .root 1) ∧
          close (addRef s .root 1) .root env = .ok s') := by
  obtain ⟨hslash, h⟩ := walkPath_ok h
  refine ⟨hslash, ?_⟩
  obtain ⟨hmore, rfl, rfl⟩ | ⟨hmore, ⟨hget, hclose, rfl⟩ | ⟨child, s₁, hget, -⟩⟩ := walk_cases h
  · exact .inl ⟨hmore, rfl, rfl⟩
  · exact .inr ⟨hmore, rfl, hget, hclose⟩
  · exfalso
    have hend : charAt (rest path) (pathFirst (rest path)).len ≠ 0 := of_decide_eq_true hmore
    refine hend (charAt_of_le ?_)
    by_cases hne : rest path = []
    · rw [hne]
      exact Nat.zero_le _
    · exact (whole_of_getDentry hne hget).ge

/-- _open gets to root_dentry or to one component below it. -/
theorem openPath_ok {path : Pathname} {r : Option DentryPtr}
    (h : openPath s path env = .ok (r, s')) : charAt path.chars 0 = slash ∧
      ((rest path = [] ∧ r = some .root ∧ s' = addRef s .root 1) ∨
        rest path ≠ [] ∧
          ((∃ d, r = some d ∧ (pathFirst (rest path)).len = (rest path).length ∧
              getDentry (addRef s .root 1) .root (pathFirst (rest path)) env = .ok (some d, s')) ∨
            r = none ∧ getDentry (addRef s .root 1) .root (pathFirst (rest path)) env =
                .ok (none, addRef s .root 1) ∧
              close (addRef s .root 1) .root env = .ok s')) := by
  obtain ⟨hslash, h⟩ := walkPath_ok h
  refine ⟨hslash, ?_⟩
  have hempty : moreComponents (pathFirst (rest path)) = true ↔ rest path ≠ [] := by
    rw [moreComponents, decide_eq_true_eq]
    constructor
    · intro hchar hnil
      exact hchar (by rw [pathFirst, hnil]; rfl)
    · intro hne
      obtain ⟨c, str, hcons⟩ := List.exists_cons_of_ne_nil hne
      have hc := rest_noNul path c (by rw [hcons]; exact List.mem_cons_self ..)
      rw [pathFirst, hcons]
      exact hc
  obtain ⟨hmore, rfl, rfl⟩ | ⟨hmore, ⟨hget, hclose, rfl⟩ | ⟨child, s₁, hget, hwalk⟩⟩ := walk_cases h
  · refine .inl ⟨?_, rfl, rfl⟩
    by_contra hne
    rw [hempty.mpr hne] at hmore
    cases hmore
  · exact .inr ⟨hempty.mp hmore, .inr ⟨rfl, hget, hclose⟩⟩
  · have hne := hempty.mp hmore
    have hwhole := whole_of_getDentry hne hget
    have hdone : moreComponents (pathNext (pathFirst (rest path))) = false := by
      rw [moreComponents, decide_eq_false_iff_not, not_not]
      exact pathNext_of_whole hwhole
    obtain ⟨-, rfl, rfl⟩ | ⟨hmore', -⟩ := walk_cases hwalk
    · exact .inr ⟨hne, .inl ⟨child, rfl, hwhole, hget⟩⟩
    · rw [hdone] at hmore'
      cases hmore'

/-! ## Files and descriptors are not touched -/

/-- The file objects and the descriptor table are as they were. -/
structure SameFiles (s s' : FsState) : Prop where
  file : s'.file = s.file
  files : s'.files = s.files
  filp : s'.filp = s.filp

theorem SameFiles.refl (s : FsState) : SameFiles s s := ⟨rfl, rfl, rfl⟩

theorem SameFiles.trans {s₁ : FsState} (h : SameFiles s s₁) (h' : SameFiles s₁ s') :
    SameFiles s s' :=
  ⟨h'.file.trans h.file, h'.files.trans h.files, h'.filp.trans h.filp⟩

theorem putDentry_sameFiles {d : DentryPtr} (h : putDentry s d env = .ok s') : SameFiles s s' := by
  obtain ⟨-, parent, p, -, -, ⟨-, rfl⟩ | ⟨-, -, vol, -, rfl⟩⟩ := putDentry_ok h
  · exact ⟨rfl, rfl, rfl⟩
  · exact ⟨rfl, rfl, rfl⟩

theorem closeUp_sameFiles {fuel : Nat} {d : DentryPtr} (h : closeUp env fuel s d = .ok s') :
    SameFiles s s' := by
  induction fuel generalizing s d with
  | zero => cases h
  | succ fuel ih =>
    rw [closeUp] at h
    split_ifs at h
    · simp only [pure_eq_ok, Except.ok.injEq] at h
      exact h ▸ .refl s
    · simp only [bind_eq_ok] at h
      obtain ⟨s₁, hput, parent, -, h⟩ := h
      exact (putDentry_sameFiles hput).trans (ih h)

theorem close_sameFiles {d : DentryPtr} (h : close s d env = .ok s') : SameFiles s s' := by
  simp only [close, bind_eq_ok] at h
  obtain ⟨s₁, hput, h⟩ := h
  split_ifs at h
  · simp only [bind_eq_ok] at h
    obtain ⟨parent, -, h⟩ := h
    exact (putDentry_sameFiles hput).trans (closeUp_sameFiles h)
  · simp only [pure_eq_ok, Except.ok.injEq] at h
    exact h ▸ putDentry_sameFiles hput

theorem getDentry_sameFiles {parent : DentryPtr} {dname : QStr} {r : Option DentryPtr}
    (h : getDentry s parent dname env = .ok (r, s')) : SameFiles s s' := by
  obtain ⟨dir, -, ⟨d, -, -, rfl⟩ | ⟨-, pos, inum, -, ⟨-, -, rfl⟩ |
    ⟨-, inode, vol, d, dName, -, -, -, -, -, rfl⟩⟩⟩ := getDentry_ok h
  · exact ⟨rfl, rfl, rfl⟩
  · exact .refl _
  · exact ⟨rfl, rfl, rfl⟩

theorem createDentry_sameFiles {parent : DentryPtr} {dname : QStr} {p : InodePtr}
    {r : Option DentryPtr} (h : createDentry s parent dname p env = .ok (r, s')) :
    SameFiles s s' := by
  obtain ⟨d, hget, -⟩ | ⟨-, dir, name, ret, disk, dirInode, d, dName, -, -, -, -, -, -, -,
    hcount⟩ := createDentry_ok h
  · exact getDentry_sameFiles hget
  · obtain ⟨disk', -, rfl⟩ := countLink_ok hcount
    exact ⟨rfl, rfl, rfl⟩

theorem opendir_sameFiles {path : Pathname} {r : Option DentryPtr}
    (h : opendir s path env = .ok (r, s')) : SameFiles s s' := by
  obtain ⟨-, ⟨-, -, rfl⟩ | ⟨-, -, -, hclose⟩⟩ := opendir_ok h
  · exact ⟨rfl, rfl, rfl⟩
  · have hroot : SameFiles s (addRef s .root 1) := ⟨rfl, rfl, rfl⟩
    exact hroot.trans (close_sameFiles hclose)

end RxdOs.Fs.DentryCache
