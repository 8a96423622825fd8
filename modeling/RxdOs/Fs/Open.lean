/- RxdOs/Fs/Open
   source: fs/fs.c (sys_open, sys_close, sys_truncate, sys_link), include/proc.h
   digest: The system calls that walk paths and keep the descriptor table. -/

import RxdOs.Fs.DentryCache

set_option autoImplicit false
set_option relaxedAutoImplicit false

namespace RxdOs.Fs.Open

open RxdOs.Base.Assert RxdOs.Fs.Layout RxdOs.Fs.Zone RxdOs.Fs.InodeCache RxdOs.Fs.Name
  RxdOs.Fs.Dir RxdOs.Fs.DentryCache

/-- `flags & O_CREAT` -/
def oCreat (flags : UInt32) : Bool := flags &&& 1 ≠ 0

/-- The search for an empty slot in current_task->filp. -/
def freeSlot (s : FsState) : Option (Fin nrMaxOpen) :=
  (List.finRange nrMaxOpen).find? fun i => (s.filp i).isNone

/-- `*filp_cur = kmem_cache_alloc(file_cache)` and the first three fields. -/
def allocFile (s : FsState) (slot : Fin nrMaxOpen) (flags : UInt32) (env : Env) :
    Kernel (Nat × FsState) := do
  let f := env.fileAt s.files
  access (f ∉ s.files) "kmem_cache_alloc(file_cache)"
  let s := { s with files := f :: s.files, filp := Function.update s.filp slot (some f) }
  pure (f, s.setFile f { s.file f with fFlags := flags, fMode := 0, fPos := 0 })

/-- kmem_cache_free(file_cache, filp) -/
def freeFile (s : FsState) (f : Nat) : Kernel FsState := do
  access (f ∈ s.files) "kmem_cache_free(file_cache, filp)"
  pure { s with files := s.files.erase f }

/-- The name after the last slash. -/
def lastName (path : Pathname) : QStr :=
  let name := match strrchr slash path.chars with
    | some str => str.drop 1
    | none => path.chars
  ⟨strlen name, name⟩

/-- sys_open from the lookup of the file name on: the dentry, or NULL. -/
def openLast (s : FsState) (parent : DentryPtr) (filename : QStr) (flags : UInt32) (env : Env) :
    Kernel (Option DentryPtr × FsState) := do
  let (dentry, s) ← getDentry s parent filename env
  match dentry with
  | some d => pure (some d, s)
  | none =>
    if oCreat flags then do
      let (inode, s) ← newInodeOf s 123 env
      let (dentry, s) ← createDentry s parent filename inode env
      let d ← deref dentry "dentry->d_name.name"
      pure (some d, s)
    else pure (none, s)

/-- sys_open; a descriptor, or -1.  A call that fails after the slot was filled leaves the
freed file object in it. -/
def sysOpen (s : FsState) (pathname : CStr) (flags : UInt32) (env : Env) :
    Kernel (Option (Fin nrMaxOpen) × FsState) := do
  let path ← kernelString pathname
  match freeSlot s with
  | none => pure (none, s)
  | some slot =>
    let (f, s) ← allocFile s slot flags env
    let (parent, s) ← opendir s path env
    match parent with
    | none => do
      let s ← freeFile s f
      pure (none, s)
    | some parent => do
      assert (parent = .root) "parent == &root_dentry"
      assert ((s.dentry parent).dInode = some .root) "parent->d_inode == &root_inode"
      let (dentry, s) ← openLast s parent (lastName path) flags env
      match dentry with
      | none => do
        let s ← freeFile s f
        pure (none, s)
      | some d => pure (some slot, s.setFile f { s.file f with fDentry := some d, fRefcnt := 1 })

/-- sys_close; the slot keeps its pointer. -/
def sysClose (s : FsState) (fd : Fin nrMaxOpen) (env : Env) : Kernel FsState := do
  let f ← deref (s.filp fd) "filp->f_dentry"
  let d ← deref (s.file f).fDentry "dentry->d_parent"
  let s ← close s d env
  freeFile s f

/-- sys_truncate; 0 or -1. -/
def sysTruncate (s : FsState) (pathname : CStr) (length : Int) (env : Env) :
    Kernel (Int × FsState) := do
  let path ← kernelString pathname
  let (dentry, s) ← openPath s path env
  match dentry with
  | none => pure (-1, s)
  | some d => do
    let p ← deref (s.dentry d).dInode "inode->i_size"
    if length < (s.vol.inode p).iSize then do
      let (disk, inode) ← reserveZone s.vol.disk (s.vol.inode p) (zonesOf length) true
      pure (0, { s with
        vol := { s.vol.setInode p { inode with iSize := length } with disk := disk } })
    else pure (0, s)

/-- sys_link, which makes no link; 0 or -1. -/
def sysLink (s : FsState) (oldpath newpath : CStr) (env : Env) : Kernel (Int × FsState) := do
  let oldpath ← kernelString oldpath
  let newpath ← kernelString newpath
  let (oldDentry, s) ← openPath s oldpath env
  if oldDentry.isNone then pure (-1, s)
  else do
    let (newDir, s) ← opendir s newpath env
    match newDir with
    | none => pure (-1, s)
    | some newDir => do
      let (_, s) ← getDentry s newDir (lastName newpath) env
      pure (-1, s)

/-! ## Names in the root directory -/

/-- The path of a name in the root directory. -/
def rootPath (name : CStr) : CStr := slash :: name

/-- A file name: it has no slash and no NUL in it. -/
def IsName (name : CStr) : Prop := ∀ c ∈ name, c ≠ 0 ∧ c ≠ slash

theorem IsName.noNul {name : CStr} (h : IsName name) : ∀ c ∈ name, c ≠ 0 := fun c hc => (h c hc).1

theorem kernelString_rootPath {name : CStr} (h : IsName name) {path : Pathname}
    (hpath : kernelString (rootPath name) = .ok path) : path.chars = rootPath name := by
  rw [kernelString_ok hpath]
  refine List.takeWhile_eq_self_iff.mpr fun c hc => ?_
  rcases List.mem_cons.mp hc with rfl | hmem
  · decide
  · simpa using (h c hmem).1

theorem strrchr_of_not_mem {c : UInt8} (hc : c ≠ 0) {str : CStr} (hnul : ∀ x ∈ str, x ≠ 0)
    (hmem : c ∉ str) : strrchr c str = none := by
  induction str with
  | nil => simp [strrchr, hc]
  | cons x str ih =>
    have hx : x ≠ 0 := hnul x (List.mem_cons_self ..)
    have hxc : x ≠ c := fun heq => hmem (heq ▸ List.mem_cons_self ..)
    rw [strrchr, if_neg hx, ih (fun y hy => hnul y (List.mem_cons_of_mem _ hy))
      (fun hy => hmem (List.mem_cons_of_mem _ hy)), if_neg hxc]
    rfl

/-- The file name of `/name` is `name`. -/
theorem lastName_rootPath {name : CStr} (h : IsName name) {path : Pathname}
    (hpath : path.chars = rootPath name) : lastName path = ⟨name.length, name⟩ := by
  have hmem : slash ∉ name := fun hm => (h slash hm).2 rfl
  have hnone := strrchr_of_not_mem (by decide : slash ≠ 0) h.noNul hmem
  have hlast : strrchr slash path.chars = some (slash :: name) := by
    rw [hpath, rootPath, strrchr, if_neg (by decide), hnone, if_pos rfl]
    rfl
  simp only [lastName, hlast, List.drop_succ_cons, List.drop_zero, strlen_of_noNul h.noNul]

theorem rest_rootPath {name : CStr} {path : Pathname} (hpath : path.chars = rootPath name) :
    rest path = name := by
  rw [rest, hpath]
  rfl

/-- _opendir of `/name` is root_dentry, with one more reference. -/
theorem opendir_rootPath {s s' : FsState} {env : Env} {name : CStr} (h : IsName name)
    {path : Pathname} (hpath : path.chars = rootPath name) {r : Option DentryPtr}
    (hopen : opendir s path env = .ok (r, s')) : r = some .root ∧ s' = addRef s .root 1 := by
  obtain ⟨-, ⟨-, hr, hs⟩ | ⟨hmore, -⟩⟩ := opendir_ok hopen
  · exact ⟨hr, hs⟩
  · have hend := pathFirst_end h.noNul fun hm => (h slash hm).2 rfl
    rw [rest_rootPath hpath] at hmore
    exact absurd hend (of_decide_eq_true hmore)

/-! ## What a returning call has done -/

section Spec

variable {s s' : FsState} {env : Env}

theorem freeSlot_some {slot : Fin nrMaxOpen} (h : freeSlot s = some slot) :
    s.filp slot = none ∧ ∀ i < slot, s.filp i ≠ none := by
  rw [freeSlot, List.find?_eq_some_iff_getElem] at h
  obtain ⟨hnone, k, hk, hget, hbelow⟩ := h
  refine ⟨by simpa using hnone, fun i hi heq => ?_⟩
  have hik : i.val < k := by
    rw [List.getElem_finRange] at hget
    have hval := congrArg Fin.val hget
    simp only [Fin.val_cast] at hval
    omega
  have hi := hbelow i.val hik
  simp [heq] at hi

theorem freeSlot_none (h : freeSlot s = none) (i : Fin nrMaxOpen) : s.filp i ≠ none := by
  intro heq
  have hi := List.find?_eq_none.mp h i (List.mem_finRange i)
  simp [heq] at hi

theorem allocFile_ok {slot : Fin nrMaxOpen} {flags : UInt32} {f : Nat}
    (h : allocFile s slot flags env = .ok (f, s')) : f = env.fileAt s.files ∧ f ∉ s.files ∧
      s' = FsState.setFile { s with
        files := f :: s.files, filp := Function.update s.filp slot (some f) } f
        { s.file f with fFlags := flags, fMode := 0, fPos := 0 } := by
  simp only [allocFile, bind_eq_ok, access_eq_ok, pure_eq_ok, Except.ok.injEq, Prod.mk.injEq] at h
  obtain ⟨_, hfresh, rfl, rfl⟩ := h
  exact ⟨rfl, hfresh, rfl⟩

theorem freeFile_ok {f : Nat} (h : freeFile s f = .ok s') :
    f ∈ s.files ∧ s' = { s with files := s.files.erase f } := by
  simp only [freeFile, bind_eq_ok, access_eq_ok, pure_eq_ok, Except.ok.injEq] at h
  obtain ⟨_, hf, rfl⟩ := h
  exact ⟨hf, rfl⟩

/-- The last part of sys_open finds a dentry, makes one, or finds nothing. -/
theorem openLast_ok {parent : DentryPtr} {filename : QStr} {flags : UInt32}
    {r : Option DentryPtr} (h : openLast s parent filename flags env = .ok (r, s')) :
    (∃ d, r = some d ∧ getDentry s parent filename env = .ok (some d, s')) ∨
      getDentry s parent filename env = .ok (none, s) ∧
        ((oCreat flags = false ∧ r = none ∧ s' = s) ∨
          oCreat flags = true ∧ ∃ d inode s₁, r = some d ∧ newInodeOf s 123 env = .ok (inode, s₁) ∧
            createDentry s₁ parent filename inode env = .ok (some d, s')) := by
  simp only [openLast, bind_eq_ok] at h
  obtain ⟨⟨dentry, s₁⟩, hget, h⟩ := h
  cases dentry with
  | some d =>
    simp only [pure_eq_ok, Except.ok.injEq, Prod.mk.injEq] at h
    obtain ⟨rfl, rfl⟩ := h
    exact .inl ⟨d, rfl, hget⟩
  | none =>
    obtain rfl := getDentry_none hget
    refine .inr ⟨hget, ?_⟩
    simp only at h
    split_ifs at h with hcreat
    · simp only [bind_eq_ok, deref_eq_ok, pure_eq_ok, Except.ok.injEq, Prod.mk.injEq] at h
      obtain ⟨⟨inode, s₂⟩, hnew, ⟨dentry, s₃⟩, hcreate, d, hd, rfl, rfl⟩ := h
      obtain rfl : dentry = some d := hd
      exact .inr ⟨hcreat, d, inode, s₂, rfl, hnew, hcreate⟩
    · simp only [pure_eq_ok, Except.ok.injEq, Prod.mk.injEq] at h
      obtain ⟨rfl, rfl⟩ := h
      exact .inl ⟨by simpa using hcreat, rfl, rfl⟩

theorem newInodeOf_ok {mode : Nat} {p : InodePtr} (h : newInodeOf s mode env = .ok (p, s')) :
    ∃ vol, createInode s.vol mode (env.inodeAt s.vol.inodeList) (env.ptrs 0) = .ok (p, vol) ∧
      s' = { s with vol := vol, links := Base.ListHead.initListHead s.links (.head p) } := by
  simp only [newInodeOf, bind_eq_ok, pure_eq_ok, Except.ok.injEq, Prod.mk.injEq] at h
  obtain ⟨⟨q, vol⟩, hcreate, rfl, rfl⟩ := h
  exact ⟨vol, hcreate, rfl⟩

theorem openLast_sameFiles {parent : DentryPtr} {filename : QStr} {flags : UInt32}
    {r : Option DentryPtr} (h : openLast s parent filename flags env = .ok (r, s')) :
    SameFiles s s' := by
  obtain ⟨d, -, hget⟩ | ⟨-, ⟨-, -, rfl⟩ | ⟨-, d, p, s₁, -, hnew, hcreate⟩⟩ := openLast_ok h
  · exact getDentry_sameFiles hget
  · exact .refl _
  · obtain ⟨vol, -, rfl⟩ := newInodeOf_ok hnew
    have hsame := createDentry_sameFiles hcreate
    exact ⟨hsame.file, hsame.files, hsame.filp⟩

/-- sys_open finds no slot; or fills one and fails in _opendir; or looks the file up. -/
theorem sysOpen_ok {pathname : CStr} {flags : UInt32} {r : Option (Fin nrMaxOpen)}
    (h : sysOpen s pathname flags env = .ok (r, s')) :
    ∃ path, kernelString pathname = .ok path ∧
      ((freeSlot s = none ∧ r = none ∧ s' = s) ∨
        ∃ slot f s₁, freeSlot s = some slot ∧ allocFile s slot flags env = .ok (f, s₁) ∧
          ((∃ s₂, opendir s₁ path env = .ok (none, s₂) ∧ freeFile s₂ f = .ok s' ∧ r = none) ∨
            ∃ s₂ s₃ dentry, opendir s₁ path env = .ok (some .root, s₂) ∧
              (s₂.dentry .root).dInode = some .root ∧
              openLast s₂ .root (lastName path) flags env = .ok (dentry, s₃) ∧
              ((dentry = none ∧ freeFile s₃ f = .ok s' ∧ r = none) ∨
                ∃ d, dentry = some d ∧ r = some slot ∧ s' =
                  s₃.setFile f { s₃.file f with fDentry := some d, fRefcnt := 1 }))) := by
  simp only [sysOpen, bind_eq_ok] at h
  obtain ⟨path, hpath, h⟩ := h
  refine ⟨path, hpath, ?_⟩
  cases hslot : freeSlot s with
  | none =>
    rw [hslot] at h
    simp only [pure_eq_ok, Except.ok.injEq, Prod.mk.injEq] at h
    obtain ⟨rfl, rfl⟩ := h
    exact .inl ⟨rfl, rfl, rfl⟩
  | some slot =>
    rw [hslot] at h
    simp only [bind_eq_ok] at h
    obtain ⟨⟨f, s₁⟩, halloc, ⟨parent, s₂⟩, hdir, h⟩ := h
    refine .inr ⟨slot, f, s₁, rfl, halloc, ?_⟩
    cases parent with
    | none =>
      simp only [bind_eq_ok, pure_eq_ok, Except.ok.injEq, Prod.mk.injEq] at h
      obtain ⟨s₃, hfree, rfl, rfl⟩ := h
      exact .inl ⟨s₂, hdir, hfree, rfl⟩
    | some parent =>
      simp only [bind_eq_ok, assert_eq_ok] at h
      obtain ⟨_, rfl, _, hroot, ⟨dentry, s₃⟩, hlast, h⟩ := h
      refine .inr ⟨s₂, s₃, dentry, hdir, hroot, hlast, ?_⟩
      cases dentry with
      | none =>
        simp only [bind_eq_ok, pure_eq_ok, Except.ok.injEq, Prod.mk.injEq] at h
        obtain ⟨s₄, hfree, rfl, rfl⟩ := h
        exact .inl ⟨rfl, hfree, rfl⟩
      | some d =>
        simp only [pure_eq_ok, Except.ok.injEq, Prod.mk.injEq] at h
        obtain ⟨rfl, rfl⟩ := h
        exact .inr ⟨d, rfl, rfl, rfl⟩

theorem sysClose_ok {fd : Fin nrMaxOpen} (h : sysClose s fd env = .ok s') :
    ∃ f d s₁, s.filp fd = some f ∧ (s.file f).fDentry = some d ∧ close s d env = .ok s₁ ∧
      freeFile s₁ f = .ok s' := by
  simp only [sysClose, bind_eq_ok, deref_eq_ok] at h
  obtain ⟨f, hf, d, hd, s₁, hclose, hfree⟩ := h
  exact ⟨f, d, s₁, hf, hd, hclose, hfree⟩

end Spec

/-! ## Open descriptors -/

section Handles

variable {s s' : FsState} {opened : Finset (Fin nrMaxOpen)} {fd : Fin nrMaxOpen} {f : Nat}
  {d : DentryPtr}

/-- The dentry behind a descriptor. -/
def dentryOf (s : FsState) (fd : Fin nrMaxOpen) : Option DentryPtr :=
  (s.filp fd).bind fun f => (s.file f).fDentry

/-- Each descriptor in `opened` has a live file object of its own, with a dentry in it. -/
structure Handles (s : FsState) (opened : Finset (Fin nrMaxOpen)) : Prop where
  file : ∀ fd ∈ opened, ∃ f d, s.filp fd = some f ∧ f ∈ s.files ∧ (s.file f).fDentry = some d
  unshared : ∀ fd ∈ opened, ∀ fd' ∈ opened, s.filp fd = s.filp fd' → fd = fd'
  nodup : s.files.Nodup

/-- The descriptor table after a sys_open that returned `fd`, with file object `f`. -/
structure Filled (s s' : FsState) (fd : Fin nrMaxOpen) (f : Nat) (d : DentryPtr) : Prop where
  slot : s.filp fd = none
  fresh : f ∉ s.files
  filp : s'.filp = Function.update s.filp fd (some f)
  files : s'.files = f :: s.files
  self : (s'.file f).fDentry = some d
  others : ∀ g, g ≠ f → s'.file g = s.file g

/-- The slot and the file object sys_open starts with. -/
def withSlot (s : FsState) (slot : Fin nrMaxOpen) (f : Nat) (flags : UInt32) : FsState :=
  FsState.setFile { s with files := f :: s.files, filp := Function.update s.filp slot (some f) } f
    { s.file f with fFlags := flags, fMode := 0, fPos := 0 }

/-- A successful sys_open of a name in the root directory. -/
theorem sysOpen_name {name : CStr} (hname : IsName name) {flags : UInt32} {env : Env}
    (h : sysOpen s (rootPath name) flags env = .ok (some fd, s')) :
    ∃ f d s₁, Filled s s' fd f d ∧ (s.dentry .root).dInode = some .root ∧
      openLast (addRef (withSlot s fd f flags) .root 1) .root ⟨name.length, name⟩ flags env =
        .ok (some d, s₁) ∧
      s' = s₁.setFile f { s₁.file f with fDentry := some d, fRefcnt := 1 } := by
  obtain ⟨path, hpath, ⟨-, hr, -⟩ | ⟨slot, f, s₁, hslot, halloc, hcases⟩⟩ := sysOpen_ok h
  · cases hr
  obtain ⟨-, hfresh, rfl⟩ := allocFile_ok halloc
  obtain ⟨_, -, -, hr⟩ | ⟨s₂, s₃, dentry, hdir, hroot, hlast, ⟨-, -, hr⟩ | ⟨d, rfl, hr, rfl⟩⟩ := hcases
  · cases hr
  · cases hr
  obtain rfl := Option.some.inj hr
  have hchars := kernelString_rootPath hname hpath
  obtain ⟨-, rfl⟩ := opendir_rootPath hname hchars hdir
  rw [lastName_rootPath hname hchars] at hlast
  have hsame := openLast_sameFiles hlast
  rw [addRef_self] at hroot
  refine ⟨f, d, s₃, ⟨(freeSlot_some hslot).1, hfresh, hsame.filp, hsame.files, ?_, ?_⟩, hroot,
    hlast, rfl⟩
  · simp [FsState.setFile]
  · intro g hg
    have hfile : s₃.file g = (withSlot s fd f flags).file g := congrFun hsame.file g
    simp only [FsState.setFile, Function.update_of_ne hg, hfile]
    exact Function.update_of_ne hg ..

/-- A sys_open of a name in the root directory that returns -1 leaves the lists alone; it may
have taken a reference on root_dentry, and a slot. -/
theorem sysOpen_name_none {name : CStr} (hname : IsName name) {flags : UInt32} {env : Env}
    (h : sysOpen s (rootPath name) flags env = .ok (none, s')) :
    s' = s ∨ ∃ slot f, s.filp slot = none ∧ f ∉ s.files ∧
      s' = { addRef (withSlot s slot f flags) .root 1 with files := s.files } := by
  obtain ⟨path, hpath, ⟨-, -, rfl⟩ | ⟨slot, f, s₁, hslot, halloc, hcases⟩⟩ := sysOpen_ok h
  · exact .inl rfl
  obtain ⟨-, hfresh, rfl⟩ := allocFile_ok halloc
  have hchars := kernelString_rootPath hname hpath
  have hfiles : (f :: s.files).erase f = s.files := List.erase_cons_head ..
  refine .inr ⟨slot, f, (freeSlot_some hslot).1, hfresh, ?_⟩
  obtain ⟨s₂, hdir, hfree, -⟩ | ⟨s₂, s₃, dentry, hdir, -, hlast, ⟨rfl, hfree, -⟩ | ⟨_, -, hr, -⟩⟩ := hcases
  · obtain ⟨hr, -⟩ := opendir_rootPath hname hchars hdir
    cases hr
  · obtain ⟨-, rfl⟩ := opendir_rootPath hname hchars hdir
    obtain ⟨-, rfl⟩ := freeFile_ok hfree
    obtain ⟨_, hr, -⟩ | ⟨-, ⟨-, -, rfl⟩ | ⟨-, _, _, _, hr, -⟩⟩ := openLast_ok hlast
    · cases hr
    · simp only [addRef, withSlot, FsState.setDentry, FsState.setFile, hfiles]
    · cases hr
  · cases hr

theorem dentryOf_eq {f : Nat} (h : s.filp fd = some f) : dentryOf s fd = (s.file f).fDentry := by
  rw [dentryOf, h]
  rfl

theorem Handles.not_mem (h : Handles s opened) (hslot : s.filp fd = none) : fd ∉ opened := by
  intro hmem
  obtain ⟨f, d, hf, -⟩ := h.file fd hmem
  rw [hslot] at hf
  cases hf

theorem Filled.dentryOf_self (hfill : Filled s s' fd f d) : dentryOf s' fd = some d := by
  rw [dentryOf_eq (by rw [hfill.filp, Function.update_self]), hfill.self]

theorem Filled.dentryOf_old (hfill : Filled s s' fd f d) (h : Handles s opened)
    {fd' : Fin nrMaxOpen} (hfd' : fd' ∈ opened) : dentryOf s' fd' = dentryOf s fd' := by
  obtain ⟨g, x, hg, hlive, -⟩ := h.file fd' hfd'
  have hne : fd' ≠ fd := fun heq => h.not_mem hfill.slot (heq ▸ hfd')
  have hg' : s'.filp fd' = some g := by rw [hfill.filp, Function.update_of_ne hne, hg]
  rw [dentryOf_eq hg, dentryOf_eq hg', hfill.others g fun heq => hfill.fresh (heq ▸ hlive)]

/-- A new descriptor joins the others. -/
theorem Handles.fill (h : Handles s opened) (hfill : Filled s s' fd f d) :
    Handles s' (insert fd opened) := by
  have hnew := h.not_mem hfill.slot
  have hold : ∀ fd' ∈ opened, s'.filp fd' = s.filp fd' := fun fd' hfd' => by
    rw [hfill.filp]
    exact Function.update_of_ne (fun (heq : fd' = fd) => hnew (heq ▸ hfd')) ..
  have hself : s'.filp fd = some f := by rw [hfill.filp, Function.update_self]
  have hapart : ∀ fd' ∈ opened, s'.filp fd' ≠ some f := fun fd' hfd' heq => by
    obtain ⟨g, x, hg, hlive, -⟩ := h.file fd' hfd'
    rw [hold fd' hfd', hg] at heq
    exact hfill.fresh (Option.some.inj heq ▸ hlive)
  refine ⟨?_, ?_, ?_⟩
  · intro fd' hfd'
    rcases Finset.mem_insert.mp hfd' with rfl | hmem
    · exact ⟨f, d, hself, by rw [hfill.files]; exact List.mem_cons_self .., hfill.self⟩
    · obtain ⟨g, x, hg, hlive, hx⟩ := h.file fd' hmem
      refine ⟨g, x, by rw [hold fd' hmem, hg], ?_, ?_⟩
      · rw [hfill.files]
        exact List.mem_cons_of_mem _ hlive
      · rw [hfill.others g fun heq => hfill.fresh (heq ▸ hlive), hx]
  · intro a ha b hb heq
    rcases Finset.mem_insert.mp ha with rfl | ha' <;> rcases Finset.mem_insert.mp hb with rfl | hb'
    · rfl
    · exact absurd (heq.symm.trans hself) (hapart b hb')
    · exact absurd (heq.trans hself) (hapart a ha')
    · rw [hold a ha', hold b hb'] at heq
      exact h.unshared a ha' b hb' heq
  · rw [hfill.files]
    exact List.nodup_cons.mpr ⟨hfill.fresh, h.nodup⟩

/-- The file object of a closed descriptor was its own, so the others keep theirs. -/
theorem Handles.free (h : Handles s opened) (hfd : fd ∈ opened) (hf : s.filp fd = some f)
    (hfile : s'.file = s.file) (hfilp : s'.filp = s.filp) (hfiles : s'.files = s.files.erase f) :
    Handles s' (opened.erase fd) := by
  refine ⟨?_, ?_, ?_⟩
  · intro fd' hfd'
    obtain ⟨hne, hmem⟩ := Finset.mem_erase.mp hfd'
    obtain ⟨g, x, hg, hlive, hx⟩ := h.file fd' hmem
    refine ⟨g, x, by rw [hfilp, hg], ?_, by rw [hfile, hx]⟩
    have hgf : g ≠ f := fun heq => hne (h.unshared fd' hmem fd hfd (by rw [hg, hf, heq]))
    rw [hfiles]
    exact (List.mem_erase_of_ne hgf).mpr hlive
  · intro a ha b hb heq
    rw [hfilp] at heq
    exact h.unshared a (Finset.mem_of_mem_erase ha) b (Finset.mem_of_mem_erase hb) heq
  · rw [hfiles]
    exact h.nodup.erase f

theorem dentryOf_congr (hfile : s'.file = s.file) (hfilp : s'.filp = s.filp)
    (fd : Fin nrMaxOpen) : dentryOf s' fd = dentryOf s fd := by
  rw [dentryOf, dentryOf, hfile, hfilp]

/-- sys_close of an open descriptor puts its dentry and frees its file object. -/
theorem Handles.sysClose (h : Handles s opened) (hfd : fd ∈ opened) {env : Env}
    (hclose : sysClose s fd env = .ok s') :
    ∃ d s₁, dentryOf s fd = some d ∧ close s d env = .ok s₁ ∧ s'.vol = s₁.vol ∧
      s'.dentry = s₁.dentry ∧ s'.dentryList = s₁.dentryList ∧ Handles s' (opened.erase fd) ∧
      ∀ fd', dentryOf s' fd' = dentryOf s fd' := by
  obtain ⟨f, d, s₁, hf, hd, hput, hfree⟩ := sysClose_ok hclose
  obtain ⟨-, rfl⟩ := freeFile_ok hfree
  have hsame := close_sameFiles hput
  refine ⟨d, s₁, by rw [dentryOf_eq hf, hd], hput, rfl, rfl, rfl, ?_, ?_⟩
  · exact h.free hfd hf hsame.file hsame.filp (by rw [hsame.files])
  · exact dentryOf_congr hsame.file hsame.filp

end Handles

/-! ## A blank machine -/

/-- The lowest object that is not handed out, of `n` that are. -/
def lowest (used : Nat → Bool) (n : Nat) : Nat :=
  ((List.range (n + 1)).find? fun i => !used i).getD n

def plainEnv : Env where
  inodeAt l := lowest (fun n => decide (.obj n ∈ l)) l.length
  dentryAt l := lowest (fun n => decide (.obj n ∈ l)) l.length
  fileAt l := lowest (fun n => decide (n ∈ l)) l.length
  ptrs _ _ := 0
  deInode := 0

/-- Memory full of zeros. -/
def blankMemory : FsState where
  vol := ⟨fun _ => zeroBlock, fun _ => ⟨0, 0, 0, 0, fun _ => 0, 0⟩, []⟩
  dentry _ := ⟨none, ⟨⟨0, []⟩, rfl⟩, none, 0⟩
  dentryList := []
  links := ⟨fun _ => .wild 0, fun _ => .wild 0⟩
  file _ := ⟨0, 0, 0, 0, none⟩
  files := []
  filp _ := none

/-- fs_init on a zeroed disk. -/
def bootBlank : Kernel FsState := fsInit blankMemory (fun _ => zeroBlock) fun _ => 0

end RxdOs.Fs.Open
