/- RxdOs/Fs/BlockCalls
   source: fs/fs.c (create_inode to sys_truncate, fs_init)
   digest: The inode cache, the dentry cache and the file calls over block visits; with the
   plain disk put back they are the calls on a state that holds its disk. -/

import RxdOs.Fs.BlockFunctions
import RxdOs.Fs.FileStore

set_option autoImplicit false
set_option relaxedAutoImplicit false

namespace RxdOs.Fs.BlockCalls

open RxdOs.Base.Assert RxdOs.Base.Int32 RxdOs.Base.ListHead RxdOs.Lib.BlockPrograms
  RxdOs.Fs.Bitmap RxdOs.Fs.Zone RxdOs.Fs.InodeCache RxdOs.Fs.Name RxdOs.Fs.Dir
  RxdOs.Fs.DentryCache RxdOs.Fs.Open RxdOs.Fs.WriteThrough RxdOs.Fs.BlockFunctions
open RxdOs.Fs.Layout hiding store
open RxdOs.Fs.Message (Found Transfer printed)
open RxdOs.Mm.Memory (allocPage freePage)

/-- The inodes in memory, with another disk. -/
def onDisk (v : Volume) (disk : Disk) : Volume := { v with disk := disk }

/-- The caches and the descriptors, with another disk. -/
def withDisk (s : FsState) (disk : Disk) : FsState := { s with vol := onDisk s.vol disk }

/-! ## Inodes

The disk in the state that these functions are given is not looked at. -/

def getInode (v : Volume) (inum addr : Nat) : Blocks (InodePtr × Volume) :=
  match v.inodeList.find? fun p => (v.inode p).iInum = inum ∧ (v.inode p).iRefcnt ≠ 0 with
  | some p =>
    pure (p, v.setInode p { v.inode p with iRefcnt := (v.inode p).iRefcnt + 1 })
  | none => do
    let p ← .lift (allocInode v addr)
    let inode ← Blocks.readInode (v.inode p) inum
    let inode := { inode with iRefcnt := inode.iRefcnt + 1 }
    pure (p, { v with inode := Function.update v.inode p inode, inodeList := p :: v.inodeList })

def createInode (v : Volume) (mode addr : Nat) (ptrs : Pointers) : Blocks (InodePtr × Volume) := do
  let inum ← Blocks.allocInodeNr
  let p ← .lift (allocInode v addr)
  let inode := newInode inum mode
  Blocks.writeInode inode ptrs
  pure (p, { v with inode := Function.update v.inode p inode, inodeList := p :: v.inodeList })

def putInode (v : Volume) (p : InodePtr) (ptrs : Pointers) : Blocks Volume := do
  .lift (assert ((v.inode p).iRefcnt > 0) "inode && inode->i_refcnt > 0")
  let inode := { v.inode p with iRefcnt := (v.inode p).iRefcnt - 1 }
  if inode.iRefcnt = 0 then do
    let inode ←
      if inode.iNlink = 0 then do
        .lift (assert (p ≠ .root) "list_empty(&inode->i_dentry) && inode != &root_inode")
        Blocks.deleteInode inode
      else do
        Blocks.writeInode inode ptrs
        pure inode
    .lift (access (p ≠ .root) "kmem_cache_free(inode_cache, inode)")
    pure { v with inode := Function.update v.inode p inode, inodeList := v.inodeList.erase p }
  else pure (v.setInode p inode)

/-! ## Dentries -/

def getDentry (s : FsState) (parent : DentryPtr) (dname : QStr) (env : Env) :
    Blocks (Option DentryPtr × FsState) := do
  let dir ← .lift (deref (s.dentry parent).dInode "dir->i_super")
  match findDentry s parent dname with
  | some d => pure (some d, addRef s d 1)
  | none => do
    .lift (assert (dname.len < maxDentryLength) "dname->len < MAX_DENTRY_LENGTH")
    let target ← .lift (lookupEntry dname env)
    let (pos, de) ← Blocks.findDirEntry (s.vol.inode dir) target
    if pos < 0 then pure (none, s)
    else do
      let (inode, vol) ← getInode s.vol de.inode (env.inodeAt s.vol.inodeList)
      let s := { s with vol := vol }
      let dentry ← .lift (allocDentry s env)
      let dName ← .lift (copyName dname)
      pure (some dentry, addDentry s dentry parent dName inode)

def newInodeOf (s : FsState) (mode : Nat) (env : Env) : Blocks (InodePtr × FsState) := do
  let (p, vol) ← createInode s.vol mode (env.inodeAt s.vol.inodeList) (env.ptrs 0)
  pure (p, { s with vol := vol, links := initListHead s.links (.head p) })

def countLink (s : FsState) (p : InodePtr) (env : Env) : Blocks FsState := do
  let inode := { s.vol.inode p with iNlink := wrapShort ((s.vol.inode p).iNlink + 1) }
  Blocks.writeInode inode (env.ptrs 2)
  pure { s with vol := s.vol.setInode p inode }

def createDentry (s : FsState) (parent : DentryPtr) (dname : QStr) (inode : InodePtr) (env : Env) :
    Blocks (Option DentryPtr × FsState) := do
  let (old, s) ← getDentry s parent dname env
  if old.isSome then pure (none, s)
  else do
    let dir ← .lift (deref (s.dentry parent).dInode "parent->d_inode")
    .lift (assert (dname.len < maxDentryLength) "dname->len < MAX_DENTRY_LENGTH")
    let name ← .lift (strncpy dname.name maxDentryLength)
    let (_, dirInode) ← Blocks.addDirEntry (s.vol.inode dir)
      ⟨(s.vol.inode inode).iInum, 32, dname.len, ftRegFile, name⟩ (env.ptrs 1)
    let s := { s with vol := s.vol.setInode dir dirInode }
    let dentry ← .lift (allocDentry s env)
    let dName ← .lift (copyName dname)
    let s := addDentry s dentry parent dName inode
    let s ← countLink s inode env
    pure (some dentry, s)

def putInodeOf (s : FsState) (p : InodePtr) (env : Env) : Blocks FsState := do
  .lift (assert
    ((s.vol.inode p).iRefcnt = 1 → (s.vol.inode p).iNlink = 0 → listEmpty s.links (.head p))
    "list_empty(&inode->i_dentry) && inode != &root_inode")
  let vol ← putInode s.vol p (env.ptrs 3)
  pure { s with vol := vol }

def putDentry (s : FsState) (dentry : DentryPtr) (env : Env) : Blocks FsState := do
  .lift (assert ((s.dentry dentry).dRefcnt > 0) "dentry && dentry->d_refcnt > 0")
  let inode := (s.dentry dentry).dInode
  let s ← .lift (dunlinkParent s dentry)
  let s ← .lift (dunlinkInode s dentry)
  if (s.dentry dentry).dRefcnt = 0 then do
    let inode ← .lift (deref inode "inode && inode->i_refcnt > 0")
    let s ← putInodeOf s inode env
    .lift (access (dentry ≠ .root) "kmem_cache_free(dentry_cache, dentry)")
    pure { s with dentryList := s.dentryList.erase dentry }
  else pure s

def closeUp (env : Env) : Nat → FsState → DentryPtr → Blocks FsState
  | 0, _, _ => .fail (.fault "while (dentry != &root_dentry)")
  | fuel + 1, s, dentry =>
    if dentry = .root then pure s
    else do
      let parent := (s.dentry dentry).dParent
      let s ← putDentry s dentry env
      let parent ← .lift (deref parent "dentry->d_parent")
      closeUp env fuel s parent

def close (s : FsState) (dentry : DentryPtr) (env : Env) : Blocks FsState := do
  let parent := (s.dentry dentry).dParent
  let n := s.dentryList.length
  let s ← putDentry s dentry env
  if (s.dentry dentry).dRefcnt = 0 then do
    let parent ← .lift (deref parent "dentry->d_parent")
    closeUp env (n + 1) s parent
  else pure s

def walk (more : QStr → Bool) (env : Env) : Nat → FsState → DentryPtr → QStr →
    Blocks (Option DentryPtr × FsState)
  | 0, _, _, _ => .fail (.fault "path_for_each(&dname, path)")
  | fuel + 1, s, dentry, dname =>
    if more dname then do
      let (child, s) ← getDentry s dentry dname env
      match child with
      | none => do
        let s ← close s dentry env
        pure (none, s)
      | some child => walk more env fuel s child (pathNext dname)
    else pure (some dentry, s)

def walkPath (more : QStr → Bool) (s : FsState) (path : Pathname) (env : Env) :
    Blocks (Option DentryPtr × FsState) := do
  .lift (assert (charAt path.chars 0 = slash) "*path == '/'")
  let s := addRef s .root 1
  let path := path.chars.drop 1
  walk more env (path.length + 2) s .root (pathFirst path)

def openPath (s : FsState) (path : Pathname) (env : Env) : Blocks (Option DentryPtr × FsState) :=
  walkPath moreComponents s path env

def opendir (s : FsState) (path : Pathname) (env : Env) : Blocks (Option DentryPtr × FsState) :=
  walkPath moreDirs s path env

/-! ## System calls -/

def openLast (s : FsState) (parent : DentryPtr) (filename : QStr) (flags : UInt32) (env : Env) :
    Blocks (Option DentryPtr × FsState) := do
  let (dentry, s) ← getDentry s parent filename env
  match dentry with
  | some d => pure (some d, s)
  | none =>
    if oCreat flags then do
      let (inode, s) ← newInodeOf s 123 env
      let (dentry, s) ← createDentry s parent filename inode env
      let d ← .lift (deref dentry "dentry->d_name.name")
      pure (some d, s)
    else pure (none, s)

def sysOpen (s : FsState) (pathname : CStr) (flags : UInt32) (env : Env) :
    Blocks (Option (Fin nrMaxOpen) × FsState) := do
  let path ← .lift (kernelString pathname)
  match freeSlot s with
  | none => pure (none, s)
  | some slot => do
    let (f, s) ← .lift (allocFile s slot flags env)
    let (parent, s) ← opendir s path env
    match parent with
    | none => do
      let s ← .lift (freeFile s f)
      pure (none, s)
    | some parent => do
      .lift (assert (parent = .root) "parent == &root_dentry")
      .lift (assert ((s.dentry parent).dInode = some .root) "parent->d_inode == &root_inode")
      let (dentry, s) ← openLast s parent (lastName path) flags env
      match dentry with
      | none => do
        let s ← .lift (freeFile s f)
        pure (none, s)
      | some d => pure (some slot, s.setFile f { s.file f with fDentry := some d, fRefcnt := 1 })

def sysClose (s : FsState) (fd : Fin nrMaxOpen) (env : Env) : Blocks FsState := do
  let f ← .lift (deref (s.filp fd) "filp->f_dentry")
  let d ← .lift (deref (s.file f).fDentry "dentry->d_parent")
  let s ← close s d env
  .lift (freeFile s f)

def sysTruncate (s : FsState) (pathname : CStr) (length : Int) (env : Env) :
    Blocks (Int × FsState) := do
  let path ← .lift (kernelString pathname)
  let (dentry, s) ← openPath s path env
  match dentry with
  | none => pure (-1, s)
  | some d => do
    let p ← .lift (deref (s.dentry d).dInode "inode->i_size")
    if length < (s.vol.inode p).iSize then do
      let inode ← Blocks.reserveZone (s.vol.inode p) (zonesOf length) true
      pure (0, { s with vol := s.vol.setInode p { inode with iSize := length } })
    else pure (0, s)

def sysReadLoop (inode : Inode) : Nat → FileIo.Reading → Blocks FileIo.Reading
  | 0, _ => .fail (.fault "while (left > 0)")
  | fuel + 1, s =>
    if s.left > 0 then do
      let (bytes, buffer) ← Blocks.read inode s.fPos s.buffer (FileIo.chunk s.left)
      if bytes > 0 then do
        .lift (printed (Transfer.readText ⟨s.fPos, bytes, buffer⟩) (s.screen s.done))
        sysReadLoop inode fuel { s with
          buffer := buffer
          usr := fun i =>
            if s.done ≤ i ∧ (i : Int) < s.done + bytes then buffer (i - s.done) else s.usr i
          left := toU32 (s.left - bytes)
          done := s.done + bytes.toNat
          fPos := wrap (s.fPos + bytes) }
      else
        sysReadLoop inode fuel { s with
          buffer := buffer
          count := toU32 (s.count - (s.left - (inode.iSize - s.fPos)))
          left := toU32 (inode.iSize - s.fPos) }
    else pure s

/-- alloc_page in front of a function, and free_page behind it. -/
def withPage {α : Type} (found : Found) (body : Blocks α) : Blocks α := do
  let (buffer, mem) ← .lift (allocPage found.mem)
  let r ← body
  let _ ← .lift (freePage mem buffer)
  pure r

def sysRead (fuel : Nat) (s : FsState) (fd : Fin nrMaxOpen) (count : Int) (found : Found)
    (usr : Nat → UInt8) : Blocks (Int × (Nat → UInt8) × FsState) := do
  let f ← .lift (deref (s.filp fd) "filp->f_dentry")
  let d ← .lift (deref (s.file f).fDentry "filp->f_dentry->d_inode")
  if count = 0 then withPage found (pure (0, usr, s))
  else do
    let p ← .lift (deref (s.dentry d).dInode "inode->i_size")
    withPage found do
      let t ← sysReadLoop (s.vol.inode p) fuel
        ⟨(s.file f).fPos, count, count, 0, found.page, usr, found.screen⟩
      pure (wrap (t.count - t.left), t.usr, s.setFile f { s.file f with fPos := t.fPos })

/-- What sys_write's loop has in its file, but for the disk. -/
def sysWrite (fuel : Nat) (s : FsState) (fd : Fin nrMaxOpen) (count : Int) (found : Found)
    (usr : Nat → UInt8) (ptrs : Pointers) : Blocks (Int × FsState) := do
  let f ← .lift (deref (s.filp fd) "filp->f_dentry")
  let d ← .lift (deref (s.file f).fDentry "filp->f_dentry->d_inode")
  if count = 0 then withPage found (pure (0, s))
  else do
    let p ← .lift (deref (s.dentry d).dInode "inode->i_size")
    withPage found do
      let t ← Blocks.sysWriteLoop usr ptrs fuel
        ⟨behind s f p, count, 0, found.page, found.screen⟩
      pure (wrap (count - t.left), putBack s f p { t.file with disk := s.vol.disk })

def formatted (ptrs : Pointers) : Blocks Unit := do
  let data ← Blocks.readSuper
  if wordAt (byteAt data) 0 4 = superMagic then pure () else Blocks.mkfs ptrs

/-- fs_init on what memory holds. -/
def fsInit (memory : FsState) (ptrs : Pointers) : Blocks FsState := do
  formatted ptrs
  let data ← Blocks.readSuper
  .lift (access (KnownSuper fun _ => data) "super")
  let inode ← Blocks.readInode (memory.vol.inode .root) 1
  let links := initListHead (initListHead memory.links (.head .root)) (.alias .root)
  let s : FsState := { memory with
    vol := { memory.vol with
      inode := Function.update memory.vol.inode .root { inode with iRefcnt := 0 }
      inodeList := [.root] }
    dentry := Function.update memory.dentry .root ⟨some .root, rootName, none, 0⟩
    dentryList := [.root]
    links := links
    files := []
    filp := fun _ => none }
  let s := dlinkInode s .root .root
  Blocks.dumpInode (s.vol.inode .root)
  pure s

/-! ## With the plain disk -/

section Plain

variable {disk : Disk} {v : Volume} {s : FsState} {env : Env}

theorem run_getInode (inum addr : Nat) : ((getInode v inum addr).run plain disk).map
    (fun r => (r.1.1, onDisk r.1.2 r.2)) = InodeCache.getInode (onDisk v disk) inum addr := by
  rw [getInode, InodeCache.getInode]
  show _ = (match v.inodeList.find? fun p => (v.inode p).iInum = inum ∧ (v.inode p).iRefcnt ≠ 0 with
    | some p => _ | none => _)
  cases v.inodeList.find? fun p => (v.inode p).iInum = inum ∧ (v.inode p).iRefcnt ≠ 0 with
  | some p => rfl
  | none =>
    dsimp only
    rw [Prog.run_lift_bind, Prog.map_bind]
    refine bind_congr fun p => ?_
    rw [Prog.run_bind_map (Blocks.run_readInode _ _), Prog.map_bind]
    exact bind_congr fun inode => rfl

theorem run_createInode (mode addr : Nat) (ptrs : Pointers) :
    ((createInode v mode addr ptrs).run plain disk).map (fun r => (r.1.1, onDisk r.1.2 r.2)) =
      InodeCache.createInode (onDisk v disk) mode addr ptrs := by
  rw [createInode, InodeCache.createInode, Prog.run_bind', Blocks.allocInodeNr,
    Blocks.run_bitmapAlloc, Prog.map_bind]
  refine bind_congr fun r => ?_
  rw [Prog.run_lift_bind, Prog.map_bind]
  refine bind_congr fun p => ?_
  rw [Prog.run_bind_map (Blocks.run_writeInode _ _), Prog.map_bind]
  exact bind_congr fun _ => rfl

theorem run_putInode (p : InodePtr) (ptrs : Pointers) :
    ((putInode v p ptrs).run plain disk).map (fun r => onDisk r.1 r.2) =
      InodeCache.putInode (onDisk v disk) p ptrs := by
  rw [putInode, InodeCache.putInode, Prog.run_lift_bind, Prog.map_bind]
  refine bind_congr fun _ => ?_
  dsimp only [onDisk]
  split_ifs with hlast hlink
  · rw [Prog.run_lift_bind, Prog.map_bind]
    refine bind_congr fun _ => ?_
    rw [Prog.run_bind_map (Blocks.run_deleteInode _), Prog.map_bind]
    refine bind_congr fun r => ?_
    rw [Prog.run_lift_bind, Prog.map_bind]
    exact bind_congr fun _ => rfl
  · rw [Prog.run_bind_map (Blocks.run_writeInode _ _), Prog.map_bind]
    refine bind_congr fun d => ?_
    rw [Prog.pure_then, Prog.run_lift_bind, Prog.map_bind, pure_bind]
    exact bind_congr fun _ => rfl
  · rfl

theorem run_getDentry (parent : DentryPtr) (dname : QStr) :
    ((getDentry s parent dname env).run plain disk).map (fun r => (r.1.1, withDisk r.1.2 r.2)) =
      DentryCache.getDentry (withDisk s disk) parent dname env := by
  rw [getDentry, DentryCache.getDentry, Prog.run_lift_bind, Prog.map_bind]
  refine bind_congr fun dir => ?_
  rw [show findDentry (withDisk s disk) parent dname = findDentry s parent dname from rfl]
  cases findDentry s parent dname with
  | some d => rfl
  | none =>
    dsimp only
    rw [Prog.run_lift_bind, Prog.map_bind]
    refine bind_congr fun _ => ?_
    rw [Prog.run_lift_bind, Prog.map_bind]
    refine bind_congr fun target => ?_
    rw [Prog.run_bind_map (Blocks.run_findDirEntry _ _), Prog.map_bind]
    refine bind_congr fun r => ?_
    dsimp only
    split_ifs
    · rfl
    · refine Prog.run_bind_view (run_getInode _ _) fun r => ?_
      rw [Prog.run_lift_bind, Prog.map_bind]
      refine bind_congr fun dentry => ?_
      rw [Prog.run_lift_bind, Prog.map_bind]
      exact bind_congr fun dName => rfl

theorem run_newInodeOf (mode : Nat) :
    ((newInodeOf s mode env).run plain disk).map (fun r => (r.1.1, withDisk r.1.2 r.2)) =
      DentryCache.newInodeOf (withDisk s disk) mode env :=
  Prog.run_bind_view (run_createInode _ _ _) fun _ => rfl

theorem run_countLink (p : InodePtr) :
    ((countLink s p env).run plain disk).map (fun r => withDisk r.1 r.2) =
      DentryCache.countLink (withDisk s disk) p env := by
  rw [countLink, DentryCache.countLink]
  dsimp only
  rw [Prog.run_bind_map (Blocks.run_writeInode _ _), Prog.map_bind]
  exact bind_congr fun _ => rfl

theorem run_createDentry (parent : DentryPtr) (dname : QStr) (p : InodePtr) :
    ((createDentry s parent dname p env).run plain disk).map
        (fun r => (r.1.1, withDisk r.1.2 r.2)) =
      DentryCache.createDentry (withDisk s disk) parent dname p env := by
  refine Prog.run_bind_view (run_getDentry parent dname) fun r => ?_
  dsimp only
  split_ifs
  · rfl
  · rw [Prog.run_lift_bind, Prog.map_bind]
    refine bind_congr fun dir => ?_
    rw [Prog.run_lift_bind, Prog.map_bind]
    refine bind_congr fun _ => ?_
    rw [Prog.run_lift_bind, Prog.map_bind]
    refine bind_congr fun name => ?_
    rw [Prog.run_bind_map (Blocks.run_addDirEntry _ _ _), Prog.map_bind]
    refine bind_congr fun q => ?_
    dsimp only
    rw [Prog.run_lift_bind, Prog.map_bind]
    refine bind_congr fun dentry => ?_
    rw [Prog.run_lift_bind, Prog.map_bind]
    refine bind_congr fun dName => ?_
    exact Prog.run_bind_view (run_countLink _) fun _ => rfl

theorem run_putInodeOf (p : InodePtr) :
    ((putInodeOf s p env).run plain disk).map (fun r => withDisk r.1 r.2) =
      DentryCache.putInodeOf (withDisk s disk) p env := by
  rw [putInodeOf, DentryCache.putInodeOf, Prog.run_lift_bind, Prog.map_bind]
  refine bind_congr fun _ => ?_
  exact Prog.run_bind_view (run_putInode _ _) fun _ => rfl

theorem dunlinkParent_withDisk (d : DentryPtr) : dunlinkParent (withDisk s disk) d =
    (dunlinkParent s d).map fun s => withDisk s disk := by
  rw [dunlinkParent, dunlinkParent, Prog.map_bind]
  exact bind_congr fun _ => rfl

theorem dunlinkInode_withDisk (d : DentryPtr) : dunlinkInode (withDisk s disk) d =
    (dunlinkInode s d).map fun s => withDisk s disk := by
  rw [dunlinkInode, dunlinkInode]
  dsimp only
  rw [Prog.map_bind]
  exact bind_congr fun _ => rfl

theorem allocFile_withDisk (slot : Fin nrMaxOpen) (flags : UInt32) :
    allocFile (withDisk s disk) slot flags env =
      (allocFile s slot flags env).map fun r => (r.1, withDisk r.2 disk) := by
  rw [allocFile, allocFile]
  dsimp only
  rw [Prog.map_bind]
  exact bind_congr fun _ => rfl

theorem freeFile_withDisk (f : Nat) : freeFile (withDisk s disk) f =
    (freeFile s f).map fun s => withDisk s disk := by
  rw [freeFile, freeFile, Prog.map_bind]
  exact bind_congr fun _ => rfl

theorem run_putDentry (d : DentryPtr) :
    ((putDentry s d env).run plain disk).map (fun r => withDisk r.1 r.2) =
      DentryCache.putDentry (withDisk s disk) d env := by
  rw [putDentry, DentryCache.putDentry, Prog.run_lift_bind, Prog.map_bind]
  refine bind_congr fun _ => ?_
  dsimp only
  rw [dunlinkParent_withDisk, Prog.bind_map, Prog.run_lift_bind, Prog.map_bind]
  refine bind_congr fun s₁ => ?_
  rw [dunlinkInode_withDisk, Prog.bind_map, Prog.run_lift_bind, Prog.map_bind]
  refine bind_congr fun s₂ => ?_
  show _ = if (s₂.dentry d).dRefcnt = 0 then _ else _
  split_ifs
  · rw [Prog.run_lift_bind, Prog.map_bind]
    refine bind_congr fun p => ?_
    refine Prog.run_bind_view (run_putInodeOf p) fun r => ?_
    rw [Prog.run_lift_bind, Prog.map_bind]
    exact bind_congr fun _ => rfl
  · rfl

theorem run_closeUp (fuel : Nat) (d : DentryPtr) :
    ((closeUp env fuel s d).run plain disk).map (fun r => withDisk r.1 r.2) =
      DentryCache.closeUp env fuel (withDisk s disk) d := by
  induction fuel generalizing s d disk with
  | zero => rfl
  | succ fuel ih =>
    rw [closeUp, DentryCache.closeUp]
    split_ifs
    · rfl
    · refine Prog.run_bind_view (run_putDentry d) fun r => ?_
      rw [Prog.run_lift_bind, Prog.map_bind]
      exact bind_congr fun parent => ih parent

theorem run_close (d : DentryPtr) :
    ((close s d env).run plain disk).map (fun r => withDisk r.1 r.2) =
      DentryCache.close (withDisk s disk) d env := by
  rw [close, DentryCache.close]
  refine Prog.run_bind_view (run_putDentry d) fun r => ?_
  show _ = if (r.1.dentry d).dRefcnt = 0 then _ else _
  split_ifs
  · rw [Prog.run_lift_bind, Prog.map_bind]
    exact bind_congr fun parent => run_closeUp _ parent
  · rfl

theorem run_walk (more : QStr → Bool) (fuel : Nat) (d : DentryPtr) (dname : QStr) :
    ((walk more env fuel s d dname).run plain disk).map (fun r => (r.1.1, withDisk r.1.2 r.2)) =
      DentryCache.walk more env fuel (withDisk s disk) d dname := by
  induction fuel generalizing s d dname disk with
  | zero => rfl
  | succ fuel ih =>
    rw [walk, DentryCache.walk]
    split_ifs
    · refine Prog.run_bind_view (run_getDentry d dname) fun r => ?_
      obtain ⟨⟨child, s₁⟩, disk₁⟩ := r
      cases child with
      | none => exact Prog.run_bind_view (run_close d) fun _ => rfl
      | some child => exact ih child (pathNext dname)
    · rfl

theorem run_walkPath (more : QStr → Bool) (path : Pathname) :
    ((walkPath more s path env).run plain disk).map (fun r => (r.1.1, withDisk r.1.2 r.2)) =
      DentryCache.walkPath more (withDisk s disk) path env := by
  rw [walkPath, DentryCache.walkPath, Prog.run_lift_bind, Prog.map_bind]
  exact bind_congr fun _ => run_walk _ _ _ _

theorem run_openLast (parent : DentryPtr) (filename : QStr) (flags : UInt32) :
    ((openLast s parent filename flags env).run plain disk).map
        (fun r => (r.1.1, withDisk r.1.2 r.2)) =
      Open.openLast (withDisk s disk) parent filename flags env := by
  refine Prog.run_bind_view (run_getDentry parent filename) fun r => ?_
  obtain ⟨⟨dentry, s₁⟩, disk₁⟩ := r
  cases dentry with
  | some d => rfl
  | none =>
    dsimp only
    split_ifs
    · refine Prog.run_bind_view (run_newInodeOf 123) fun r => ?_
      refine Prog.run_bind_view (run_createDentry _ _ _) fun q => ?_
      rw [Prog.run_lift_bind, Prog.map_bind]
      exact bind_congr fun _ => rfl
    · rfl

theorem run_freeFile (f : Nat) (ret : Option (Fin nrMaxOpen)) :
    ((Prog.lift (freeFile s f) >>= fun s => (pure (ret, s) : Blocks _)).run plain disk).map
        (fun r => (r.1.1, withDisk r.1.2 r.2)) =
      freeFile (withDisk s disk) f >>= fun s => pure (ret, s) := by
  rw [Prog.run_lift_bind, Prog.map_bind, freeFile_withDisk, Prog.bind_map]
  exact bind_congr fun _ => rfl

theorem run_sysOpen (pathname : CStr) (flags : UInt32) :
    ((sysOpen s pathname flags env).run plain disk).map (fun r => (r.1.1, withDisk r.1.2 r.2)) =
      Open.sysOpen (withDisk s disk) pathname flags env := by
  rw [sysOpen, Open.sysOpen, Prog.run_lift_bind, Prog.map_bind]
  refine bind_congr fun path => ?_
  rw [show freeSlot (withDisk s disk) = freeSlot s from rfl]
  cases freeSlot s with
  | none => rfl
  | some slot =>
    dsimp only
    rw [allocFile_withDisk, Prog.bind_map, Prog.run_lift_bind, Prog.map_bind]
    refine bind_congr fun r => ?_
    refine Prog.run_bind_view (run_walkPath _ _) fun q => ?_
    obtain ⟨⟨parent, s₁⟩, disk₁⟩ := q
    cases parent with
    | none => exact run_freeFile _ _
    | some parent =>
      dsimp only
      rw [Prog.run_lift_bind, Prog.map_bind]
      refine bind_congr fun _ => ?_
      rw [Prog.run_lift_bind, Prog.map_bind]
      refine bind_congr fun _ => ?_
      refine Prog.run_bind_view (run_openLast _ _ _) fun q => ?_
      obtain ⟨⟨dentry, s₂⟩, disk₂⟩ := q
      cases dentry with
      | none => exact run_freeFile _ _
      | some d => rfl

theorem run_sysClose (fd : Fin nrMaxOpen) :
    ((sysClose s fd env).run plain disk).map (fun r => withDisk r.1 r.2) =
      Open.sysClose (withDisk s disk) fd env := by
  rw [sysClose, Open.sysClose, Prog.run_lift_bind, Prog.map_bind]
  refine bind_congr fun f => ?_
  rw [Prog.run_lift_bind, Prog.map_bind]
  refine bind_congr fun d => ?_
  refine Prog.run_bind_view (run_close d) fun r => ?_
  rw [Prog.run_lift, freeFile_withDisk]
  cases freeFile r.1 f <;> rfl

theorem run_sysTruncate (pathname : CStr) (length : Int) :
    ((sysTruncate s pathname length env).run plain disk).map
        (fun r => (r.1.1, withDisk r.1.2 r.2)) =
      Open.sysTruncate (withDisk s disk) pathname length env := by
  rw [sysTruncate, Open.sysTruncate, Prog.run_lift_bind, Prog.map_bind]
  refine bind_congr fun path => ?_
  refine Prog.run_bind_view (run_walkPath _ _) fun r => ?_
  obtain ⟨⟨dentry, s₁⟩, disk₁⟩ := r
  cases dentry with
  | none => rfl
  | some d =>
    dsimp only
    rw [Prog.run_lift_bind, Prog.map_bind]
    refine bind_congr fun p => ?_
    show _ = if length < (s₁.vol.inode p).iSize then _ else _
    split_ifs
    · rw [Prog.run_bind_map (Blocks.run_reserveZone _ _ _), Prog.map_bind]
      exact bind_congr fun _ => rfl
    · rfl

theorem run_sysReadLoop (inode : Inode) (fuel : Nat) (t : FileIo.Reading) :
    (sysReadLoop inode fuel t).run plain disk =
      (FileIo.sysReadLoop disk inode fuel t).map fun t => (t, disk) := by
  induction fuel generalizing t with
  | zero => rfl
  | succ fuel ih =>
    rw [sysReadLoop, FileIo.sysReadLoop]
    split_ifs
    · rw [Prog.run_bind_map (Blocks.run_read _ _ _ _), Prog.map_bind]
      refine bind_congr fun r => ?_
      dsimp only
      split_ifs
      · rw [Prog.run_lift_bind, Prog.map_bind]
        exact bind_congr fun _ => ih _
      · exact ih _
    · rfl

theorem run_withPage {α β : Type} {found : Found} {p : Blocks α} {g : α × Disk → β} {x : Kernel β}
    (h : (p.run plain disk).map g = x) :
    ((withPage found p).run plain disk).map g = Message.withPage found x := by
  rw [← h, ← Message.withPage_map]
  congr 1
  rw [withPage, Message.withPage, Prog.run_lift_bind]
  refine bind_congr fun a => ?_
  rw [Prog.run_bind']
  refine bind_congr fun r => ?_
  rw [Prog.run_lift_bind]
  rfl

/-- A read puts the inode back as it was. -/
theorem putBack_same (f : Nat) (p : InodePtr) (pos : Int) :
    putBack (withDisk s disk) f p ⟨disk, s.vol.inode p, pos⟩ =
      withDisk (s.setFile f { s.file f with fPos := pos }) disk := by
  have hsame : Function.update s.vol.inode p (s.vol.inode p) = s.vol.inode :=
    Function.update_eq_self ..
  simp only [putBack, withDisk, onDisk, Volume.setInode, FsState.setFile, hsame]

theorem run_sysRead (fuel : Nat) (fd : Fin nrMaxOpen) (count : Int) (found : Found)
    (usr : Nat → UInt8) : ((sysRead fuel s fd count found usr).run plain disk).map
        (fun r => (r.1.1, r.1.2.1, withDisk r.1.2.2 r.2)) =
      FileStore.readUser fuel (withDisk s disk) fd count found usr := by
  rw [sysRead, FileStore.readUser, Prog.run_lift_bind, Prog.map_bind]
  refine bind_congr fun f => ?_
  rw [Prog.run_lift_bind, Prog.map_bind]
  refine bind_congr fun d => ?_
  split_ifs
  · exact run_withPage rfl
  · rw [Prog.run_lift_bind, Prog.map_bind]
    refine bind_congr fun p => ?_
    refine (run_withPage ?_).trans (Message.withPage_bind found _
      fun r : Int × (Nat → UInt8) × FileIo.OpenFile =>
        (r.1, r.2.1, putBack (withDisk s disk) f p r.2.2)).symm
    rw [Prog.run_bind_map (run_sysReadLoop _ _ _), Prog.map_bind, Prog.map_bind]
    refine bind_congr fun t => ?_
    exact congrArg (fun x => Except.ok (_, _, x)) (putBack_same f p t.fPos).symm

theorem run_sysWriteLoop (usr : Nat → UInt8) (ptrs : Pointers) (fuel : Nat)
    (t : FileIo.Writing) : ((Blocks.sysWriteLoop usr ptrs fuel t).run plain disk).map
        (fun r => { r.1 with file := { r.1.file with disk := r.2 } }) =
      FileIo.sysWriteLoop usr ptrs fuel { t with file := { t.file with disk := disk } } := by
  induction fuel generalizing t disk with
  | zero => rfl
  | succ fuel ih =>
    rw [Blocks.sysWriteLoop, FileIo.sysWriteLoop]
    dsimp only
    split_ifs
    · rw [Prog.run_lift_bind, Prog.map_bind]
      refine bind_congr fun _ => ?_
      rw [Prog.run_bind_map (Blocks.run_write _ _ _ _ _), Prog.map_bind]
      refine bind_congr fun r => ?_
      dsimp only
      split_ifs
      · exact ih _
      · rfl
    · rfl

theorem run_sysWrite (fuel : Nat) (fd : Fin nrMaxOpen) (count : Int) (found : Found)
    (usr : Nat → UInt8) (ptrs : Pointers) : ((sysWrite fuel s fd count found usr ptrs).run plain disk).map
        (fun r => (r.1.1, withDisk r.1.2 r.2)) =
      WriteThrough.sysWrite fuel (withDisk s disk) fd count found usr ptrs := by
  rw [sysWrite, WriteThrough.sysWrite, Prog.run_lift_bind, Prog.map_bind]
  refine bind_congr fun f => ?_
  rw [Prog.run_lift_bind, Prog.map_bind]
  refine bind_congr fun d => ?_
  split_ifs
  · exact run_withPage rfl
  · rw [Prog.run_lift_bind, Prog.map_bind]
    refine bind_congr fun p => ?_
    refine (run_withPage ?_).trans (Message.withPage_bind found _
      fun r : Int × FileIo.OpenFile => (r.1, putBack (withDisk s disk) f p r.2)).symm
    rw [Prog.map_bind]
    exact Prog.run_bind_view (run_sysWriteLoop _ _ _ _) fun _ => rfl

theorem run_formatted (ptrs : Pointers) : (formatted ptrs).run plain disk =
    (DentryCache.formatted disk ptrs).map fun d => ((), d) := by
  rw [formatted, DentryCache.formatted, Blocks.readSuper, Prog.run_bind', Prog.run_look, ok_bind]
  dsimp only
  split_ifs
  · rfl
  · exact Blocks.run_mkfs ptrs

theorem run_fsInit (memory : FsState) (ptrs : Pointers) :
    ((fsInit memory ptrs).run plain disk).map (fun r => withDisk r.1 r.2) =
      DentryCache.fsInit memory disk ptrs := by
  rw [fsInit, DentryCache.fsInit, Prog.run_bind_map (run_formatted ptrs), Prog.map_bind]
  refine bind_congr fun d => ?_
  rw [Blocks.readSuper, Prog.run_bind', Prog.run_look, ok_bind, Prog.run_lift_bind, Prog.map_bind]
  refine bind_congr fun _ => ?_
  rw [Prog.run_bind_map (Blocks.run_readInode _ _), Prog.map_bind]
  refine bind_congr fun inode => ?_
  dsimp only
  rw [Prog.run_bind', Blocks.dumpInode, Blocks.run_dumpLoop]
  rfl

end Plain

end RxdOs.Fs.BlockCalls
