/- RxdOs/Fs/FileStore
   source: fs/fs.c (sys_open, sys_close, sys_read, sys_write, sys_lseek, sys_truncate, fs_init)
   digest: The file calls, and restarts on the same disk, are a store of named files: the caches,
   the zones and the records cannot be seen. -/

import RxdOs.Fs.FileBodies
import RxdOs.Fs.UserPaths

set_option autoImplicit false
set_option relaxedAutoImplicit false

namespace RxdOs.Fs.FileStore

open RxdOs.Base.Assert RxdOs.Base.Int32 RxdOs.Lib.Execution RxdOs.Lib.NamedFiles RxdOs.Fs.Bitmap
  RxdOs.Fs.Layout RxdOs.Fs.Zone RxdOs.Fs.ZoneMap RxdOs.Fs.FileBytes RxdOs.Fs.FileRead
  RxdOs.Fs.InodeCache RxdOs.Fs.InodeRecord RxdOs.Fs.InodeRegion RxdOs.Fs.InodeTable RxdOs.Fs.Name
  RxdOs.Fs.Dir RxdOs.Fs.Directory RxdOs.Fs.DentryCache RxdOs.Fs.Open RxdOs.Fs.CacheReach
  RxdOs.Fs.PathResolution RxdOs.Fs.RootDirectory RxdOs.Fs.WriteThrough RxdOs.Fs.NamedCache
  RxdOs.Fs.UserPaths RxdOs.Fs.FileBodies

open RxdOs.Fs.Message (Found withPage withPage_eq_ok)

/-! ## Calls and what they return -/

/-- A call with its result, or a restart with what memory holds then. -/
inductive Act
  | open (pathname : CStr) (flags : UInt32) (env : Env) (ret : Option (Fin nrMaxOpen))
  | close (fd : Fin nrMaxOpen) (env : Env)
  | truncate (pathname : CStr) (length : Int) (env : Env) (ret : Int)
  | read (fd : Fin nrMaxOpen) (count : BitVec 32) (found : Found) (usr : Nat → UInt8) (ret : Int)
      (usr' : Nat → UInt8)
  | write (fd : Fin nrMaxOpen) (count : BitVec 32) (found : Found) (usr : Nat → UInt8) (ptrs : Pointers)
      (ret : Int)
  | lseek (fd : Fin nrMaxOpen) (offset whence : BitVec 32) (ret : Int)
  | restart (memory : FsState) (ptrs : Pointers)

/-- sys_read through the descriptor table, with what it leaves in the user's buffer. -/
def readUser (fuel : Nat) (s : FsState) (fd : Fin nrMaxOpen) (count : Int)
    (found : Found) (usr : Nat → UInt8) : Kernel (Int × (Nat → UInt8) × FsState) := do
  let f ← deref (s.filp fd) "filp->f_dentry"
  let d ← deref (s.file f).fDentry "filp->f_dentry->d_inode"
  if count = 0 then withPage found (pure (0, usr, s))
  else do
    let p ← deref (s.dentry d).dInode "inode->i_size"
    let (ret, usr, o) ← FileIo.sysRead fuel (behind s f p) count found usr
    pure (ret, usr, putBack s f p o)

/-- A call that returns, or a restart on the disk as it is. -/
inductive Step : FsState → Act → FsState → Prop
  | open {s s' : FsState} {pathname : CStr} {flags : UInt32} {env : Env}
      {r : Option (Fin nrMaxOpen)} : sysOpen s pathname flags env = .ok (r, s') →
      Step s (.open pathname flags env r) s'
  | close {s s' : FsState} {fd : Fin nrMaxOpen} {env : Env} : sysClose s fd env = .ok s' →
      Step s (.close fd env) s'
  | truncate {s s' : FsState} {pathname : CStr} {length ret : Int} {env : Env} :
      sysTruncate s pathname length env = .ok (ret, s') →
      Step s (.truncate pathname length env ret) s'
  | read {s s' : FsState} {fuel : Nat} {fd : Fin nrMaxOpen} {count : BitVec 32}
      {found : Found} {usr usr' : Nat → UInt8} {ret : Int} :
      readUser fuel s fd count.toNat found usr = .ok (ret, usr', s') →
      Step s (.read fd count found usr ret usr') s'
  | write {s s' : FsState} {fuel : Nat} {fd : Fin nrMaxOpen} {count : BitVec 32}
      {found : Found} {usr : Nat → UInt8} {ptrs : Pointers} {ret : Int} :
      sysWrite fuel s fd count.toNat found usr ptrs = .ok (ret, s') →
      Step s (.write fd count found usr ptrs ret) s'
  | lseek {s s' : FsState} {fd : Fin nrMaxOpen} {offset whence : BitVec 32} {ret : Int} :
      sysLseek s fd offset.toInt whence.toInt = .ok (ret, s') →
      Step s (.lseek fd offset whence ret) s'
  | restart {s s' memory : FsState} {ptrs : Pointers} :
      fsInit memory s.vol.disk ptrs = .ok s' → Step s (.restart memory ptrs) s'

/-! ## The store that is seen -/

/-- The number of the inode behind a file object, and its position. -/
def behindFile (s : FsState) (f : Nat) : Option (Nat × Nat) := do
  let d ← (s.file f).fDentry
  let p ← (s.dentry d).dInode
  pure ((s.vol.inode p).iInum, (s.file f).fPos.toNat)

/-- The names and the files on the disk, and the file objects handed out. -/
def store (s : FsState) : Store FileName Nat (Fin nrMaxOpen) UInt8 where
  names := numberOf s.vol.disk
  body := bodyOn s.vol.disk
  opened f := if f ∈ s.files then behindFile s f else none
  fd := s.filp

@[simp] theorem store_names (s : FsState) : (store s).names = numberOf s.vol.disk := by
  rw [store]

@[simp] theorem store_body (s : FsState) : (store s).body = bodyOn s.vol.disk := by
  rw [store]

@[simp] theorem store_fd (s : FsState) : (store s).fd = s.filp := rfl

theorem store_opened {s : FsState} {f : Nat} (hf : f ∈ s.files) :
    (store s).opened f = behindFile s f := if_pos hf

theorem store_closed {s : FsState} {f : Nat} (hf : f ∉ s.files) : (store s).opened f = none :=
  if_neg hf

theorem component_iff (c : CStr) : (c ≠ [] ∧ c.length < maxDentryLength ∧
    (c.all fun x => x ≠ 0 && x ≠ slash) = true) ↔ Component c := by
  simp only [List.all_eq_true, Bool.and_eq_true, decide_eq_true_eq]
  exact ⟨fun h => ⟨h.1, h.2.1, h.2.2⟩, fun h => ⟨h.nonempty, h.short, h.isName⟩⟩

instance (c : CStr) : Decidable (Component c) := decidable_of_iff _ (component_iff c)

/-- The file name a path leads to, if it is one of the root directory. -/
def fileName (pathname : CStr) : Option FileName :=
  match kernelString pathname with
  | .ok path =>
    if moreDirs (pathFirst (rest path)) then none
    else if h : Component (lastName path).name then some ⟨_, h⟩ else none
  | .error _ => none

/-- Where sys_lseek counts from. -/
def originOf (whence : Int) : Option Origin :=
  if whence = FileIo.seekSet then some .start
  else if whence = FileIo.seekCur then some .here
  else if whence = FileIo.seekEnd then some .finish
  else none

/-- What a call is for the store. -/
def event : Act → Event FileName (Fin nrMaxOpen) UInt8
  | .open pathname flags _ r => .open (fileName pathname) (oCreat flags) r
  | .close fd _ => .close fd
  | .truncate _ _ _ _ => .idle
  | .read fd count _ _ ret usr' => .read fd count.toNat ret ((List.range ret.toNat).map usr')
  | .write fd count _ usr _ ret => .write fd ((List.range count.toNat).map usr) ret
  | .lseek fd offset whence ret =>
    match originOf whence.toInt with
    | some origin => .seek fd origin offset.toInt ret
    | none => .idle
  | .restart _ _ => .restart

/-! ## The calls that are looked at -/

/-- The file object behind an open descriptor. -/
def OpenAt (s : FsState) (fd : Fin nrMaxOpen) (f : Nat) : Prop := f ∈ s.files ∧ s.filp fd = some f

/-- Its file. -/
def FileAt (s : FsState) (f : Nat) (o : FileIo.OpenFile) : Prop :=
  ∃ d p, (s.file f).fDentry = some d ∧ (s.dentry d).dInode = some p ∧ o = behind s f p

/-- What is asked of the calls of a run: paths that fit and no cut; open descriptors; no dentry
closed under another file object; reads and writes with at most one block after the first; seeks
to positions an off_t holds. -/
def Plain (s : FsState) : Act → Prop
  | .open pathname flags env _ => Polite s (.open pathname flags env)
  | .close fd _ => ∃ f, OpenAt s fd f ∧
      ∀ g ∈ s.files, (s.file g).fDentry = (s.file f).fDentry → g = f
  | .truncate pathname length env _ => Polite s (.truncate pathname length env)
  | .read fd count _ _ _ _ => ∃ f, OpenAt s fd f ∧ ∀ o, FileAt s f o →
      restBytes o.fPos.toNat (FileIo.available o count.toNat) ≤ 1024
  | .write fd count _ _ _ _ => ∃ f, OpenAt s fd f ∧
      restBytes (s.file f).fPos.toNat count.toNat ≤ 1024
  | .lseek fd offset whence _ => ∃ f, OpenAt s fd f ∧ ∀ o, FileAt s f o →
      FileIo.Fitting o (.lseek offset whence)
  | .restart _ _ => True

variable {s s' s₁ : FsState} {es es' : List Record} {env : Env} {d : DentryPtr} {p : InodePtr}
  {path : Pathname} {flags : UInt32} {c : CStr} {f : Nat}
  {fd : Fin nrMaxOpen}

/-! ## The invariant of plain runs -/

section Invariant

/-- On top of what polite runs keep: every file object is linked to a file and has a position, no
file has bytes past its end, and the super block is there. -/
structure Good (s : FsState) : Prop where
  inv : UserPaths.Inv s
  opened : ∀ f ∈ s.files, ∃ d p, (s.file f).fDentry = some d ∧ (s.dentry d).dInode = some p
  position : ∀ f ∈ s.files, FileIo.Position (s.file f).fPos
  trimmed : AllTrimmed s.vol.disk
  magic : wordAt (byteAt (s.vol.disk 1)) 0 4 = superMagic

/-- A file object with its listed dentry, its inode, and the entry that both belong to. -/
structure Reaches (s : FsState) (es : List Record) (f : Nat) (d : DentryPtr) (p : InodePtr) :
    Prop where
  dentry : (s.file f).fDentry = some d
  listed : d ∈ s.dentryList
  low : d ≠ .root
  inode : (s.dentry d).dInode = some p
  mem : p ∈ s.vol.inodeList
  notRoot : p ≠ .root
  named : filesOf es (s.vol.inode p).iInum

theorem Good.reaches (h : Good s) (hes : Indexed s es) (hf : f ∈ s.files) :
    ∃ d p, Reaches s es f d p := by
  obtain ⟨d, p, hd, hp⟩ := h.opened f hf
  have hlisted := h.inv.kept.listed hf hd hp
  have hlow : d ≠ .root := fun heq => h.inv.low f hf (heq ▸ hd)
  obtain ⟨r, hr, -, hnum⟩ := hes.tidy.named d hlisted hlow p hp
  exact ⟨d, p, hd, hlisted, hlow, hp, hes.cached.linked d hlisted p hp,
    hes.inode_ne_root hlisted hlow hp, r, hr, hnum.symm⟩

theorem behindFile_eq (hd : (s.file f).fDentry = some d) (hp : (s.dentry d).dInode = some p) :
    behindFile s f = some ((s.vol.inode p).iInum, (s.file f).fPos.toNat) := by
  rw [behindFile, hd, Option.bind_eq_bind, Option.bind_some, hp]
  rfl

/-- The file of an open file object, as sys_read and sys_write find it. -/
theorem Reaches.sound (h : Reaches s es f d p) (hgood : Good s) (hf : f ∈ s.files) :
    FileIo.Sound (behind s f p) := by
  have hv := hgood.inv.kept.cached.through
  have hused := hv.used p h.mem
  obtain ⟨hown, -, -, -⟩ := hv.table.ready hused (hv.same p h.mem)
  exact ⟨hv.table.reserved, hown, ⟨hused.1, hused.2.1, hused.2.2,
    inodeBlk_lt (hv.table.inside _ hused)⟩, hgood.position f hf⟩

/-- The bytes of the file are those of the inode in memory. -/
theorem Reaches.body (h : Reaches s es f d p) (hes : Indexed s es) :
    bodyOn s.vol.disk (s.vol.inode p).iInum = bytesOf s.vol.disk (s.vol.inode p) := by
  have hv := hes.cached.through
  rw [bodyOn, if_pos ((mem_numbersOn hv hes.entries.toNamed).mpr h.named), hv.same p h.mem]
  rfl

/-- What a file object leads to is not changed where its dentry stays. -/
theorem behindFile_stays (h : Good s) (hes : Indexed s es) (hes' : Indexed s' es')
    (hsub : ∀ r ∈ es, r ∈ es') (hf : f ∈ s.files)
    (hdentry : (s'.file f).fDentry = (s.file f).fDentry)
    (hpos : (s'.file f).fPos = (s.file f).fPos)
    (hst : ∀ d, (s.file f).fDentry = some d → Stays s s' d) :
    behindFile s' f = behindFile s f := by
  obtain ⟨d, p, hr⟩ := h.reaches hes hf
  have hd := hst d hr.dentry
  have hp' : (s'.dentry d).dInode = some p := hd.inode.trans hr.inode
  have hnum := hd.number hes hes' hsub hr.listed hr.low hr.inode hp'
  rw [behindFile_eq hr.dentry hr.inode, behindFile_eq (hdentry.trans hr.dentry) hp', hnum, hpos]

/-- File objects whose dentries stay keep their place. -/
theorem Good.of_files (h : Good s) (hinv : UserPaths.Inv s') (htrim : AllTrimmed s'.vol.disk)
    (hmagic : s'.vol.disk 1 = s.vol.disk 1)
    (hfiles : ∀ g ∈ s'.files, (g ∈ s.files ∧ (s'.file g).fDentry = (s.file g).fDentry ∧
        (s'.file g).fPos = (s.file g).fPos ∧
        ∀ d, (s.file g).fDentry = some d → (s'.dentry d).dInode = (s.dentry d).dInode) ∨
      (∃ d p, (s'.file g).fDentry = some d ∧ (s'.dentry d).dInode = some p) ∧
        FileIo.Position (s'.file g).fPos) : Good s' := by
  refine ⟨hinv, fun g hg => ?_, fun g hg => ?_, htrim, ?_⟩
  · obtain ⟨hold, hdentry, -, hinode⟩ | ⟨hnew, -⟩ := hfiles g hg
    · obtain ⟨d, p, hd, hp⟩ := h.opened g hold
      exact ⟨d, p, hdentry.trans hd, (hinode d hd).trans hp⟩
    · exact hnew
  · obtain ⟨hold, -, hpos, -⟩ | ⟨-, hnew⟩ := hfiles g hg
    · rw [hpos]
      exact h.position g hold
    · exact hnew
  · rw [hmagic]
    exact h.magic

end Invariant

/-! ## Opening -/

section Opening

variable {slot : Fin nrMaxOpen} {s₂ : FsState}

theorem fileName_of_more {pathname : CStr} (hpath : kernelString pathname = .ok path)
    (hmore : moreDirs (pathFirst (rest path)) = true) : fileName pathname = none := by
  rw [fileName, hpath]
  exact if_pos hmore

theorem fileName_of_one {pathname : CStr} (hpath : kernelString pathname = .ok path)
    (hone : moreDirs (pathFirst (rest path)) = false) (hlast : (lastName path).name = c) :
    fileName pathname = if h : Component c then some ⟨c, h⟩ else none := by
  rw [fileName, hpath]
  show (if moreDirs (pathFirst (rest path)) then none else _) = _
  rw [hone, if_neg Bool.false_ne_true]
  subst hlast
  rfl

/-- File objects whose records and dentries stay lead where they led. -/
theorem Good.stays_behind (h : Good s) (hes : Indexed s es) (hes' : Indexed s' es')
    (hsub : ∀ r ∈ es, r ∈ es') (hst : ∀ x ∈ s.dentryList, x ≠ .root → Stays s s' x) {g : Nat}
    (hg : g ∈ s.files) (hfile : s'.file g = s.file g) : behindFile s' g = behindFile s g ∧
      ∀ d, (s.file g).fDentry = some d → (s'.dentry d).dInode = (s.dentry d).dInode := by
  obtain ⟨d, p, hr⟩ := h.reaches hes hg
  have hstays : ∀ d', (s.file g).fDentry = some d' → Stays s s' d' := by
    intro d' hd'
    obtain rfl : d = d' := Option.some.inj (hr.dentry.symm.trans hd')
    exact hst d hr.listed hr.low
  refine ⟨?_, fun d' hd' => (hstays d' hd').inode⟩
  exact behindFile_stays h hes hes' hsub hg (by rw [hfile]) (by rw [hfile]) hstays

/-- Nothing is seen of a call that keeps the entries, their files, the file objects and their
dentries, but for the descriptors. -/
theorem Good.unseen (h : Good s) (hes : Indexed s es) (hes' : Indexed s' es)
    (hlist : s'.files = s.files) (hfile : ∀ g ∈ s.files, s'.file g = s.file g)
    (hst : ∀ x ∈ s.dentryList, x ≠ .root → Stays s s' x)
    (hsp : Spared s.vol.disk s'.vol.disk (filesOf es)) (hinv : UserPaths.Inv s') :
    Good s' ∧ store s' = { store s with fd := s'.filp } := by
  obtain ⟨hnames, hbodies, htrim⟩ :=
    hsp.unseen hes.cached.through hes.entries hes'.cached.through hes'.entries
  have hbehind := fun g (hg : g ∈ s.files) =>
    h.stays_behind hes hes' (fun _ hr => hr) hst hg (hfile g hg)
  refine ⟨h.of_files hinv (htrim h.trimmed) hsp.super fun g hg => .inl ?_, ?_⟩
  · have hold : g ∈ s.files := hlist ▸ hg
    exact ⟨hold, by rw [hfile g hold], by rw [hfile g hold], (hbehind g hold).2⟩
  · refine Store.ext ?_ ?_ (funext fun g => ?_) rfl
    · rw [store_names, hnames, store_names]
    · rw [store_body, hbodies, store_body]
    · show (store s').opened g = (store s).opened g
      by_cases hg : g ∈ s.files
      · rw [store_opened hg, store_opened (hlist ▸ hg), (hbehind g hg).1]
      · rw [store_closed hg, store_closed (hlist ▸ hg)]

/-- A sys_open that fails after it has taken a slot leaves a pointer to no file object there. -/
theorem Good.giveBack (h : Good s) (hes : Indexed s es) (hes₂ : Indexed s₂ es)
    (hfresh : f ∉ s.files) (hfiles : SameFiles (withSlot s slot f flags) s₂)
    (hst : ∀ x ∈ s.dentryList, x ≠ .root → Stays s s₂ x)
    (hsp : Spared s.vol.disk s₂.vol.disk (filesOf es)) (hfree : freeFile s₂ f = .ok s')
    (hinv : UserPaths.Inv s') : Good s' ∧ store s' = (store s).give slot f := by
  obtain ⟨-, hs'⟩ := freeFile_ok hfree
  have hlist : s'.files = s.files := by
    rw [hs']
    show s₂.files.erase f = s.files
    rw [hfiles.files]
    exact List.erase_cons_head ..
  have hfile : ∀ g ∈ s.files, s'.file g = s.file g := by
    intro g hg
    have hgf : g ≠ f := fun heq => hfresh (heq ▸ hg)
    rw [hs', hfiles.file]
    exact Function.update_of_ne hgf ..
  have hfd : s'.filp = Function.update s.filp slot (some f) := by
    rw [hs']
    exact hfiles.filp
  have hes' : Indexed s' es :=
    hes₂.same hinv.kept.cached (by rw [hs']) (by rw [hs']) (by rw [hs'])
  obtain ⟨hgood, heq⟩ := h.unseen hes hes' hlist hfile (fun x hx hne => by
    have hx₂ := hst x hx hne
    rw [hs']
    exact ⟨hx₂.listed, hx₂.name, hx₂.inode⟩) (by rw [hs']; exact hsp) hinv
  refine ⟨hgood, ?_⟩
  rw [heq, hfd]
  rfl

/-- A sys_open that succeeds hands out a file object at the start of its file. -/
theorem Good.hand (h : Good s) (hes : Indexed s es) (hes₂ : Indexed s₂ es')
    (hsub : ∀ r ∈ es, r ∈ es') (hfiles : SameFiles (withSlot s slot f flags) s₂)
    (hst : ∀ x ∈ s.dentryList, x ≠ .root → Stays s s₂ x)
    (hsuper : s₂.vol.disk 1 = s.vol.disk 1) (htrim : AllTrimmed s₂.vol.disk)
    (hp : (s₂.dentry d).dInode = some p)
    (hs' : s' = s₂.setFile f { s₂.file f with fDentry := some d, fRefcnt := 1 })
    (hinv : UserPaths.Inv s') : Good s' ∧ (store s').fd = Function.update (store s).fd slot (some f) ∧
      (store s').opened =
        Function.update (store s).opened f (some ((s₂.vol.inode p).iInum, 0)) := by
  have hself : (s₂.file f).fPos = 0 := by
    rw [hfiles.file]
    simp only [withSlot, FsState.setFile, Function.update_self]
  have hfile : ∀ g, g ≠ f → s'.file g = s.file g := by
    intro g hgf
    rw [hs']
    show Function.update s₂.file f _ g = _
    rw [Function.update_of_ne hgf, hfiles.file]
    exact Function.update_of_ne hgf ..
  have hfilef : s'.file f = { s₂.file f with fDentry := some d, fRefcnt := 1 } := by
    rw [hs']
    exact Function.update_self ..
  have hlist : s'.files = f :: s.files := by
    rw [hs']
    exact hfiles.files
  have hdentry : s'.dentry = s₂.dentry := by rw [hs']; rfl
  have hvol : s'.vol = s₂.vol := by rw [hs']; rfl
  have hes' : Indexed s' es' := hes₂.same hinv.kept.cached hvol hdentry (by rw [hs']; rfl)
  have hst' : ∀ x ∈ s.dentryList, x ≠ .root → Stays s s' x := by
    intro x hx hne
    have hx₂ := hst x hx hne
    refine ⟨?_, by rw [hdentry, hx₂.name], by rw [hdentry, hx₂.inode]⟩
    rw [hs']
    exact hx₂.listed
  refine ⟨h.of_files hinv (hvol ▸ htrim) (hvol ▸ hsuper) fun g hg => ?_, ?_, funext fun g => ?_⟩
  · rw [hlist] at hg
    by_cases hgf : g = f
    · refine .inr ⟨⟨d, p, ?_, ?_⟩, ?_⟩
      · rw [hgf, hfilef]
      · rw [hdentry, hp]
      · rw [hgf, hfilef]
        show FileIo.Position (s₂.file f).fPos
        rw [hself]
        exact ⟨le_rfl, by decide⟩
    · have hold := (List.mem_cons.mp hg).resolve_left hgf
      obtain ⟨-, hinode⟩ := h.stays_behind hes hes' hsub hst' hold (hfile g hgf)
      exact .inl ⟨hold, by rw [hfile g hgf], by rw [hfile g hgf], hinode⟩
  · show s'.filp = _
    rw [hs']
    exact hfiles.filp
  · by_cases hgf : g = f
    · rw [hgf, Function.update_self, store_opened (hlist ▸ List.mem_cons_self ..)]
      rw [behindFile_eq (d := d) (p := p) (by rw [hfilef]) (by rw [hdentry, hp]), hfilef, hvol]
      show some (_, ((s₂.file f).fPos).toNat) = _
      rw [hself]
      rfl
    · rw [Function.update_of_ne hgf]
      by_cases hg : g ∈ s.files
      · rw [store_opened hg, store_opened (hlist ▸ List.mem_cons_of_mem f hg)]
        exact (h.stays_behind hes hes' hsub hst' hg (hfile g hgf)).1
      · have hnot : g ∉ s'.files := by
          rw [hlist, List.mem_cons]
          exact fun hor => hor.elim hgf hg
        rw [store_closed hg, store_closed hnot]

/-- The file of a name that create_dentry has added: empty, and with a number of its own. -/
structure Created (disk : Disk) (s' : FsState) (es : List Record) (r : Record) (d : DentryPtr)
    (p : InodePtr) : Prop where
  indexed : Indexed s' (es ++ [r])
  spared : Spared disk s'.vol.disk (filesOf es)
  low : d ≠ .root
  inode : (s'.dentry d).dInode = some p
  number : (s'.vol.inode p).iInum = r.inode
  size : (stored s'.vol.disk r.inode).iSize = 0
  name : ∀ q ∈ es, q.name ≠ r.name
  fresh : ∀ q ∈ es, q.inode ≠ r.inode

theorem created_of (h : Indexed s es) (hc : Component c)
    (hfree : ∃ n < tableSize, ¬InodeBit s.vol.disk n) (hnew : newInodeOf s 123 env = .ok (p, s₁))
    (hcreate : createDentry s₁ .root ⟨c.length, c⟩ p env = .ok (some d, s')) :
    ∃ r : Record, r.name = c ∧ Created s.vol.disk s' es r d p := by
  obtain ⟨h₁, hfile⟩ := h.newInodeOf hfree hnew
  obtain ⟨hroot, r, hname, h'⟩ := h₁.createDentry hfile hc hcreate
  obtain ⟨hsp, hnum, hsize, hlist, hinode⟩ := createDentry_spares h₁ hfile hcreate
  obtain ⟨vol, hcreated, hs₁⟩ := newInodeOf_ok hnew
  have hgrown : Spared s.vol.disk s₁.vol.disk (filesOf es) := by
    rw [hs₁]
    exact (Through.createInode_spares h.cached.through hcreated hfree (by decide)).mono
      fun _ _ => trivial
  have hempty : (s₁.vol.inode p).iSize = 0 := by
    obtain ⟨-, -, n, disk, -, -, -, hvol, -⟩ := createInode_ok hcreated
    rw [hs₁]
    show (vol.inode p).iSize = 0
    rw [hvol, Function.update_self]
    rfl
  have hnone : ∀ q ∈ es, q.name ≠ c := by
    obtain ⟨_, -, hr⟩ | ⟨hget, -⟩ := createDentry_ok hcreate
    · cases hr
    obtain ⟨-, pos, inum, hlook, hneg⟩ := getDentry_misses h₁.cached hget
    obtain ⟨-, hnone⟩ | ⟨hpos, -⟩ :=
      lookup_name h₁.entries.toNamed hc.nonempty hc.isName.noNul hlook
    · exact hnone
    · omega
  -- the dentry is named after the new entry, for no old one has the number of the inode
  have hlisted : d ∈ s'.dentryList := createDentry_listed hcreate
  have hnumber : (s'.vol.inode p).iInum = r.inode := by
    obtain ⟨q, hq, -, hqnum⟩ := h'.tidy.named d hlisted hroot p hinode
    rcases List.mem_append.mp hq with hold | hlast
    · exact absurd (hqnum.symm.trans hnum) (hfile.number q hold)
    · rw [hqnum, List.mem_singleton.mp hlast]
  have hmem : p ∈ s'.vol.inodeList := by
    rw [hlist]
    exact hfile.mem
  refine ⟨r, hname, h', hgrown.trans hsp, hroot, hinode, hnumber, ?_, ?_, fun q hq heq => ?_⟩
  · rw [← hnumber, h'.cached.through.same p hmem]
    exact hsize.trans hempty
  · rw [hname]
    exact hnone
  · exact hfile.number q hq (heq.trans (hnumber.symm.trans hnum))

theorem Good.handFound (h : Good s) (hes : Indexed s es) (hes₂ : Indexed s₂ es)
    (hfiles : SameFiles (withSlot s slot f flags) s₂)
    (hst : ∀ x ∈ s.dentryList, x ≠ .root → Stays s s₂ x) (hdisk : s₂.vol.disk = s.vol.disk)
    {q : Record} (hlink : LinkedTo s₂ d q)
    (hs' : s' = s₂.setFile f { s₂.file f with fDentry := some d, fRefcnt := 1 })
    (hinv : UserPaths.Inv s') :
    Good s' ∧ store s' = ((store s).give slot f).attach f q.inode 0 := by
  obtain ⟨p, hp, hnum⟩ := hlink
  obtain ⟨hgood, hfd, hopened⟩ := h.hand hes hes₂ (fun _ hr => hr) hfiles hst (by rw [hdisk])
    (by rw [hdisk]; exact h.trimmed) hp hs' hinv
  have hvol : s'.vol.disk = s.vol.disk := by
    rw [hs', ← hdisk]
    rfl
  refine ⟨hgood, Store.ext ?_ ?_ ?_ ?_⟩
  · rw [Store.attach_names, Store.give_names, store_names, store_names, hvol]
  · rw [Store.attach_body, Store.give_body, store_body, store_body, hvol]
  · rw [Store.attach_opened, Store.give_opened, hopened, hnum]
  · rw [Store.attach_fd, Store.give_fd, hfd]

theorem Good.handCreated (h : Good s) (hes : Indexed s es) {r : Record} {c : FileName}
    (hnew : Created s.vol.disk s₂ es r d p) (hname : r.name = c.1)
    (hfiles : SameFiles (withSlot s slot f flags) s₂)
    (hst : ∀ x ∈ s.dentryList, x ≠ .root → Stays s s₂ x)
    (hs' : s' = s₂.setFile f { s₂.file f with fDentry := some d, fRefcnt := 1 })
    (hinv : UserPaths.Inv s') : Good s' ∧ store s' =
      (({ store s with names := Function.update (store s).names c (some r.inode) }.setBody r.inode
        []).give slot f).attach f r.inode 0 := by
  obtain ⟨hnames, hbodies, htrim⟩ := hnew.spared.created hes.cached.through hes.entries
    hnew.indexed.cached.through hnew.indexed.entries hname hnew.name hnew.size
  obtain ⟨hgood, hfd, hopened⟩ := h.hand hes hnew.indexed
    (fun _ hr => List.mem_append_left [r] hr) hfiles hst hnew.spared.super (htrim h.trimmed)
    hnew.inode hs' hinv
  have hvol : s'.vol.disk = s₂.vol.disk := by
    rw [hs']
    rfl
  refine ⟨hgood, Store.ext ?_ ?_ ?_ ?_⟩
  · rw [Store.attach_names, Store.give_names, Store.setBody_names, store_names, store_names, hvol,
      hnames]
  · rw [Store.attach_body, Store.give_body, Store.setBody_body, store_body, store_body, hvol,
      hbodies]
  · rw [Store.attach_opened, Store.give_opened, Store.setBody_opened, hopened, hnew.number]
  · rw [Store.attach_fd, Store.give_fd, Store.setBody_fd, hfd]

/-- A file name that fits has no empty name, or none that is found. -/
theorem component_of_fits (h : Indexed s es) (hroot : (s.dentry .root).dInode = some .root)
    (hname : IsName c) (hfits : LastFits s ⟨c.length, c⟩ flags)
    (hnamed : oCreat flags = true → c ≠ []) :
    Component c ∨ c = [] ∧ oCreat flags = false ∧
      getDentry s .root ⟨c.length, c⟩ env = .ok (none, s) := by
  by_cases hne : c = []
  · subst hne
    rw [LastFits, if_pos rfl] at hfits
    have hcreat : ¬oCreat flags = true := fun hc => hnamed hc rfl
    have hsize := hfits.resolve_left hcreat
    rw [root_size h] at hsize
    obtain rfl : es = [] := List.length_eq_zero_iff.mp (by omega)
    have hget := getDentry_missing env h hroot hname (by decide) (unmatched_nil.mpr rfl)
    exact .inr ⟨rfl, Bool.not_eq_true _ ▸ hcreat, hget⟩
  · rw [LastFits, if_neg hne] at hfits
    exact .inl ⟨hne, hfits.1, hname⟩

theorem store_names_none (h : Indexed s es) (c : FileName) (hnone : ∀ q ∈ es, q.name ≠ c.1) :
    (store s).names c = none := by
  rw [store_names, numberOf_eq h.cached.through h.entries.toNamed]
  exact mapOf_eq_none.mpr hnone

theorem store_names_some (h : Indexed s es) {c : FileName} {q : Record} (hq : q ∈ es)
    (hname : q.name = c.1) : (store s).names c = some q.inode := by
  rw [store_names, numberOf_eq h.cached.through h.entries.toNamed, ← hname]
  exact mapOf_of_mem h.entries.listing.nodup hq

/-- What one step does: it keeps the invariant, and the store sees its event. -/
def Seen (s : FsState) (a : Act) (s' : FsState) : Prop :=
  Good s' ∧ Lib.NamedFiles.Step 0 (store s) (event a) (store s')

/-- sys_open takes the free slot and either fails or hands out the file of the name. -/
theorem Good.sysOpen (h : Good s) {pathname : CStr} {r : Option (Fin nrMaxOpen)}
    (hplain : Polite s (.open pathname flags env))
    (hopen : sysOpen s pathname flags env = .ok (r, s')) :
    Seen s (.open pathname flags env r) s' := by
  obtain ⟨hready, -, hfit⟩ := hplain
  have hinv := h.inv.sysOpen hready hfit hopen
  obtain ⟨es, hes⟩ := h.inv.indexed
  obtain ⟨path, hpath, ⟨hnone, rfl, rfl⟩ | ⟨slot, f, s₁, hslot, halloc, hcases⟩⟩ :=
    sysOpen_ok hopen
  · exact ⟨h, .full (freeSlot_none hnone)⟩
  obtain ⟨hspare, hfree⟩ := hready path hpath
  obtain ⟨⟨hslash, -, hfits⟩, hnamed⟩ := hfit path hpath
  obtain ⟨-, hfresh, rfl⟩ := allocFile_ok halloc
  have hempty : (store s).fd slot = none := (freeSlot_some hslot).1
  have hclosed := store_closed hfresh
  have h₁ : Indexed (withSlot s slot f flags) es := withSlot_indexed hes hfresh slot
  obtain ⟨s₂, hdir, hback, rfl⟩ | ⟨s₂, s₃, dentry, hdir, hlinked, hlast, hend⟩ := hcases
  · have hst : ∀ x ∈ s.dentryList, x ≠ .root → Stays s s₂ x := by
      intro x _ hne
      have hx := stays_opendir h₁.cached hne hdir
      exact ⟨hx.listed, hx.name, hx.inode⟩
    have hsp : Spared s.vol.disk s₂.vol.disk (filesOf es) := by
      have hsp := opendir_spares h₁ hdir
      exact hsp
    obtain ⟨hgood, heq⟩ := h.giveBack hes (h₁.opendir hdir) hfresh (opendir_sameFiles hdir) hst
      hsp hback hinv
    obtain ⟨-, ⟨-, hr, -⟩ | ⟨hmore, -⟩⟩ := opendir_ok hdir
    · cases hr
    refine ⟨hgood, ?_⟩
    rw [heq]
    refine .missing hempty hclosed fun c hc => ?_
    rw [fileName_of_more hpath hmore] at hc
    cases hc
  have hfiles := (opendir_sameFiles hdir).trans (openLast_sameFiles hlast)
  obtain ⟨-, ⟨hone, -, rfl⟩ | ⟨-, hr, -⟩⟩ := opendir_ok hdir
  swap
  · cases hr
  rw [if_neg (by rw [hone]; exact Bool.false_ne_true)] at hfits
  obtain ⟨c, hname, heq⟩ := lastName_isName hslash hone
  have hfile := fileName_of_one hpath hone (congrArg QStr.name heq)
  have hne' := hnamed hone
  rw [heq] at hfits hspare hfree hlast hne'
  have h₂ : Indexed (addRef (withSlot s slot f flags) .root 1) es := h₁.addRef .root
  have hst : ∀ x ∈ s.dentryList, x ≠ .root → Stays s s₃ x := by
    intro x hx _
    have hx₀ := stays_addRef (withSlot s slot f flags) .root 1 x
    have hx₃ := stays_openLast (hx₀.listed hx) hlast
    exact ⟨(hx₀.trans hx₃).listed, (hx₀.trans hx₃).name, (hx₀.trans hx₃).inode⟩
  have hcomp := @component_of_fits _ _ env _ _ h₂ hlinked hname hfits hne'
  obtain ⟨d, rfl, hget⟩ | ⟨hget, ⟨hcreat, rfl, rfl⟩ | ⟨hcreat, d, p, s₄, rfl, hnew, hcreate⟩⟩ :=
    openLast_ok hlast
  · -- the file is found
    have hc : Component c := by
      rcases hcomp with hc | ⟨rfl, -, hnone⟩
      · exact hc
      · have hboth := hget.symm.trans hnone
        cases hboth
    obtain ⟨hnil, -, -⟩ | ⟨d', hd, rfl, hs'⟩ := hend
    · cases hnil
    obtain rfl := Option.some.inj hd
    obtain ⟨-, q, hq, hqname, hlink⟩ := h₂.getDentry_some hname hc.nonempty hget
    have h₃ := h₂.getDentry hc.nonempty hname.noNul hspare hget
    have hdisk : s₃.vol.disk = s.vol.disk := by
      have hsame := getDentry_disk hget
      exact hsame
    obtain ⟨hgood, heqs⟩ := h.handFound hes h₃ hfiles hst hdisk hlink hs' hinv
    refine ⟨hgood, ?_⟩
    rw [event, hfile, dif_pos hc, heqs]
    exact .found hempty hclosed (store_names_some hes hq hqname)
  · -- it is missing, and not to be created
    obtain ⟨-, hback, rfl⟩ | ⟨d, hd, -⟩ := hend
    swap
    · cases hd
    obtain ⟨hgood, heqs⟩ := h.giveBack hes h₂ hfresh hfiles hst (.refl _ _) hback hinv
    refine ⟨hgood, ?_⟩
    rw [heqs]
    refine .missing hempty hclosed fun c' hc' => ⟨?_, hcreat⟩
    rw [hfile] at hc'
    split_ifs at hc' with hc
    obtain rfl := Option.some.inj hc'
    obtain ⟨-, pos, inum, hlook, hneg⟩ := getDentry_misses h₂.cached hget
    obtain ⟨-, hnone⟩ | ⟨hpos, -⟩ := lookup_name h₂.entries.toNamed hc.nonempty hname.noNul hlook
    · exact store_names_none hes _ hnone
    · omega
  · -- it is created
    have hc : Component c := hcomp.resolve_right fun hnil => hne' hcreat hnil.1
    obtain ⟨hnil, -, -⟩ | ⟨d', hd, rfl, hs'⟩ := hend
    · cases hnil
    obtain rfl := Option.some.inj hd
    obtain ⟨hnone, hmiss⟩ := getDentry_misses h₂.cached hget
    obtain ⟨r, hrname, hnew⟩ := created_of h₂ hc (hfree hcreat ⟨hnone, hmiss⟩) hnew hcreate
    obtain ⟨hgood, heqs⟩ := h.handCreated hes (c := ⟨c, hc⟩) hnew hrname hfiles hst hs' hinv
    refine ⟨hgood, ?_⟩
    rw [event, hfile, dif_pos hc, heqs, hcreat]
    refine .created hempty hclosed ?_ fun c' hc' => ?_
    · refine store_names_none hes _ fun q hq => ?_
      exact hrname ▸ hnew.name q hq
    · rw [store_names, numberOf_eq hes.cached.through hes.entries.toNamed] at hc'
      obtain ⟨q, hq, heq⟩ := Option.map_eq_some_iff.mp hc'
      exact hnew.fresh q (List.mem_of_find?_eq_some hq) heq

end Opening

/-! ## The other calls -/

section Calls

variable {count : BitVec 32} {found : Found} {usr usr' : Nat → UInt8} {ret : Int} {fuel : Nat}

/-- sys_close forgets the file object; the others have dentries of their own. -/
theorem Good.sysClose (h : Good s) (hf : OpenAt s fd f)
    (halone : ∀ g ∈ s.files, (s.file g).fDentry = (s.file f).fDentry → g = f)
    (hclose : sysClose s fd env = .ok s') : Seen s (.close fd env) s' := by
  have hinv := h.inv.sysClose hclose
  obtain ⟨es, hes⟩ := h.inv.indexed
  obtain ⟨d, p, hr⟩ := h.reaches hes hf.1
  obtain ⟨f', d', s₁, hfd, hd, hput, hfree⟩ := sysClose_ok hclose
  obtain rfl : f = f' := Option.some.inj (hf.2.symm.trans hfd)
  obtain rfl : d = d' := Option.some.inj (hr.dentry.symm.trans hd)
  have hsame := close_sameFiles hput
  have h₁ : Indexed s₁ es := hes.close hr.listed hput
  have hsp := close_spares hes hr.listed hput
  obtain ⟨-, hs'⟩ := freeFile_ok hfree
  have hes' : Indexed s' es :=
    h₁.same hinv.kept.cached (by rw [hs']) (by rw [hs']) (by rw [hs'])
  have hfile : s'.file = s.file := by rw [hs', ← hsame.file]
  have hmem : ∀ g, g ∈ s'.files ↔ g ≠ f ∧ g ∈ s.files := by
    intro g
    rw [hs']
    show g ∈ s₁.files.erase f ↔ _
    rw [hsame.files]
    exact hes.cached.rooted.files.mem_erase_iff
  have hbehind : ∀ g ∈ s'.files, behindFile s' g = behindFile s g ∧
      ∀ x, (s.file g).fDentry = some x → (s'.dentry x).dInode = (s.dentry x).dInode := by
    intro g hg
    obtain ⟨hgf, hold⟩ := (hmem g).mp hg
    have hst : ∀ x, (s.file g).fDentry = some x → Stays s s' x := by
      intro x hx
      have hxd : x ≠ d := by
        rintro rfl
        exact hgf (halone g hold (hx.trans hr.dentry.symm))
      have hx₁ := stays_close hes.cached hr.listed hxd hput
      rw [hs']
      exact ⟨hx₁.listed, hx₁.name, hx₁.inode⟩
    refine ⟨?_, fun x hx => (hst x hx).inode⟩
    exact behindFile_stays h hes hes' (fun _ hr => hr) hold (by rw [hfile]) (by rw [hfile]) hst
  have hsp' : Spared s.vol.disk s'.vol.disk (filesOf es) := by
    rw [hs']
    exact hsp
  obtain ⟨hnames, hbodies, htrim⟩ :=
    hsp'.unseen hes.cached.through hes.entries hes'.cached.through hes'.entries
  refine ⟨h.of_files hinv (htrim h.trimmed) hsp'.super fun g hg => .inl ?_, ?_⟩
  · exact ⟨((hmem g).mp hg).2, by rw [hfile], by rw [hfile], (hbehind g hg).2⟩
  have heqs : store s' =
      { store s with opened := Function.update (store s).opened f none } := by
    refine Store.ext ?_ ?_ (funext fun g => ?_) ?_
    · rw [store_names, hnames, store_names]
    · rw [store_body, hbodies, store_body]
    · show (store s').opened g = Function.update (store s).opened f none g
      by_cases hgf : g = f
      · rw [hgf, Function.update_self]
        exact store_closed fun hg => ((hmem f).mp hg).1 rfl
      · rw [Function.update_of_ne hgf]
        by_cases hg : g ∈ s.files
        · have hg' := (hmem g).mpr ⟨hgf, hg⟩
          rw [store_opened hg, store_opened hg', (hbehind g hg').1]
        · rw [store_closed hg, store_closed fun hg' => hg ((hmem g).mp hg').2]
    · show s'.filp = s.filp
      rw [hs']
      exact hsame.filp
  rw [heqs]
  refine .close hf.2 ?_
  rw [store_opened hf.1, behindFile_eq hr.dentry hr.inode]
  exact Option.some_ne_none _

/-- Only the position of one file object is another, and perhaps the volume. -/
structure Moved (s s' : FsState) (f : Nat) (pos : Int) : Prop where
  dentry : s'.dentry = s.dentry
  files : s'.files = s.files
  filp : s'.filp = s.filp
  file : s'.file = Function.update s.file f { s.file f with fPos := pos }
  number : ∀ q, (s'.vol.inode q).iInum = (s.vol.inode q).iInum

theorem Good.moved (h : Good s) (hes : Indexed s es) {pos : Int} (hf : f ∈ s.files)
    (hr : Reaches s es f d p) (hm : Moved s s' f pos) (hpos : FileIo.Position pos)
    (hsuper : s'.vol.disk 1 = s.vol.disk 1) (htrim : AllTrimmed s'.vol.disk)
    (hinv : UserPaths.Inv s') : Good s' ∧ (store s').fd = (store s).fd ∧ (store s').opened =
      Function.update (store s).opened f (some ((s.vol.inode p).iInum, pos.toNat)) := by
  have hfile : ∀ g, g ≠ f → s'.file g = s.file g := by
    intro g hgf
    rw [hm.file, Function.update_of_ne hgf]
  have hself : s'.file f = { s.file f with fPos := pos } := by
    rw [hm.file, Function.update_self]
  refine ⟨h.of_files hinv htrim hsuper fun g hg => ?_, hm.filp, funext fun g => ?_⟩
  · rw [hm.files] at hg
    by_cases hgf : g = f
    · refine .inr ⟨⟨d, p, ?_, ?_⟩, ?_⟩
      · rw [hgf, hself]
        exact hr.dentry
      · rw [hm.dentry]
        exact hr.inode
      · rw [hgf, hself]
        exact hpos
    · exact .inl ⟨hg, by rw [hfile g hgf], by rw [hfile g hgf], fun _ _ => by rw [hm.dentry]⟩
  · by_cases hgf : g = f
    · rw [hgf, Function.update_self, store_opened (hm.files ▸ hf)]
      rw [behindFile_eq (d := d) (p := p) (by rw [hself]; exact hr.dentry)
        (by rw [hm.dentry]; exact hr.inode), hself, hm.number]
    · rw [Function.update_of_ne hgf]
      by_cases hg : g ∈ s.files
      · obtain ⟨d', p', hr'⟩ := h.reaches hes hg
        rw [store_opened hg, store_opened (hm.files ▸ hg), behindFile_eq hr'.dentry hr'.inode,
          behindFile_eq (d := d') (p := p') (by rw [hfile g hgf]; exact hr'.dentry)
            (by rw [hm.dentry]; exact hr'.inode), hfile g hgf, hm.number]
      · rw [store_closed hg, store_closed (hm.files ▸ hg)]

/-- The position moves, and nothing else. -/
theorem Good.attach (h : Good s) (hes : Indexed s es) {pos : Int} (hf : f ∈ s.files)
    (hr : Reaches s es f d p) (hm : Moved s s' f pos) (hpos : FileIo.Position pos)
    (hdisk : s'.vol.disk = s.vol.disk) (hinv : UserPaths.Inv s') :
    Good s' ∧ store s' = (store s).attach f (s.vol.inode p).iInum pos.toNat := by
  obtain ⟨hgood, hfd, hopened⟩ := h.moved hes hf hr hm hpos (by rw [hdisk])
    (by rw [hdisk]; exact h.trimmed) hinv
  refine ⟨hgood, Store.ext ?_ ?_ ?_ ?_⟩
  · rw [Store.attach_names, store_names, store_names, hdisk]
  · rw [Store.attach_body, store_body, store_body, hdisk]
  · rw [Store.attach_opened, hopened]
  · rw [Store.attach_fd, hfd]

theorem readUser_sysRead {count : Int}
    (hread : readUser fuel s fd count found usr = .ok (ret, usr', s')) :
    WriteThrough.sysRead fuel s fd count found usr = .ok (ret, s') := by
  simp only [readUser, bind_eq_ok, deref_eq_ok] at hread
  obtain ⟨f, hf, d, hd, hread⟩ := hread
  simp only [WriteThrough.sysRead, bind_eq_ok, deref_eq_ok]
  refine ⟨f, hf, d, hd, ?_⟩
  split_ifs at hread ⊢ with hcount
  · simp only [withPage_eq_ok, pure_eq_ok, Except.ok.injEq, Prod.mk.injEq] at hread ⊢
    exact ⟨hread.1, hread.2.1, hread.2.2.2⟩
  · simp only [bind_eq_ok, deref_eq_ok, pure_eq_ok, Except.ok.injEq, Prod.mk.injEq] at hread ⊢
    obtain ⟨p, hp, r, hcall, rfl, -, rfl⟩ := hread
    exact ⟨p, hp, r, hcall, rfl, rfl⟩

/-- An open file object has a file and a position in the store. -/
theorem Reaches.opened (hr : Reaches s es f d p) (hf : f ∈ s.files) :
    (store s).opened f = some ((s.vol.inode p).iInum, (s.file f).fPos.toNat) := by
  rw [store_opened hf, behindFile_eq hr.dentry hr.inode]

theorem Reaches.fileAt (hr : Reaches s es f d p) : FileAt s f (behind s f p) :=
  ⟨d, p, hr.dentry, hr.inode, rfl⟩

theorem map_range_slice {l : List UInt8} {pos n : Nat} {g : Nat → UInt8}
    (hlen : n = (slice l pos count.toNat).length) (hget : ∀ i < n, l[pos + i]? = some (g i)) :
    (List.range n).map g = slice l pos count.toNat := by
  refine List.ext_getElem? fun i => ?_
  rw [length_slice] at hlen
  by_cases hi : i < n
  · rw [List.getElem?_map, List.getElem?_range hi, slice, List.getElem?_take, if_pos (by omega),
      List.getElem?_drop, hget i hi]
    rfl
  · rw [List.getElem?_eq_none (by simp; omega), List.getElem?_eq_none]
    rw [length_slice]
    omega

/-- sys_read answers with the next bytes of the file. -/
theorem Good.sysRead (h : Good s) (hf : OpenAt s fd f)
    (hrest : ∀ o, FileAt s f o → restBytes o.fPos.toNat (FileIo.available o count.toNat) ≤ 1024)
    (hread : readUser fuel s fd count.toNat found usr = .ok (ret, usr', s')) :
    Seen s (.read fd count found usr ret usr') s' := by
  have hinv := h.inv.sysRead (readUser_sysRead hread)
  obtain ⟨es, hes⟩ := h.inv.indexed
  obtain ⟨d, p, hr⟩ := h.reaches hes hf.1
  have hopened := hr.opened hf.1
  have hlen : ((store s).body (s.vol.inode p).iInum).length = (s.vol.inode p).iSize.toNat := by
    rw [store_body, hr.body hes, length_bytesOf]
  obtain ⟨pos, hpos⟩ := Int.eq_ofNat_of_zero_le (h.position f hf.1).1
  -- the answer is what there is from the position on
  suffices hdata : s'.vol = s.vol ∧ Moved s s' f ((s.file f).fPos + ret) ∧
      FileIo.Position ((s.file f).fPos + ret) ∧ (List.range ret.toNat).map usr' =
        slice ((store s).body (s.vol.inode p).iInum) pos count.toNat ∧
      ret.toNat = (slice ((store s).body (s.vol.inode p).iInum) pos count.toNat).length ∧
      0 ≤ ret by
    obtain ⟨hvol, hmoved, hposition, hslice, hret, hnonneg⟩ := hdata
    obtain ⟨hgood, heqs⟩ := h.attach hes hf.1 hr hmoved hposition (by rw [hvol]) hinv
    refine ⟨hgood, ?_⟩
    have hend : ((s.file f).fPos + ret).toNat =
        pos + (slice ((store s).body (s.vol.inode p).iInum) pos count.toNat).length := by
      omega
    have hnat : ret = (slice ((store s).body (s.vol.inode p).iInum) pos count.toNat).length := by
      omega
    rw [heqs, hend, event, hslice, hnat]
    refine .read hf.2 ?_
    rw [hopened, hpos]
    rfl
  simp only [readUser, bind_eq_ok, deref_eq_ok] at hread
  obtain ⟨f', hf', d', hd', hread⟩ := hread
  obtain rfl : f = f' := Option.some.inj (hf.2.symm.trans hf')
  obtain rfl : d = d' := Option.some.inj (hr.dentry.symm.trans hd')
  split_ifs at hread with hcount
  · simp only [withPage_eq_ok, pure_eq_ok, Except.ok.injEq, Prod.mk.injEq] at hread
    obtain ⟨-, rfl, rfl, rfl⟩ := hread
    have hzero : count.toNat = 0 := by exact_mod_cast hcount
    refine ⟨rfl, ⟨rfl, rfl, rfl, ?_, fun _ => rfl⟩, ?_, ?_, ?_, le_rfl⟩
    · rw [add_zero, Function.update_eq_self]
    · rw [add_zero]
      exact h.position f hf.1
    · rw [hzero, slice, List.take_zero]
      rfl
    · rw [length_slice, hzero, Nat.zero_min]
      rfl
  · simp only [bind_eq_ok, deref_eq_ok, pure_eq_ok, Except.ok.injEq, Prod.mk.injEq] at hread
    obtain ⟨p', hp', ⟨bytes, got, o⟩, hcall, rfl, rfl, rfl⟩ := hread
    obtain rfl : p = p' := Option.some.inj (hr.inode.symm.trans hp')
    have hsound := hr.sound h hf.1
    obtain ⟨rfl, rfl, hbytes⟩ := sysRead_data hsound count.isLt hcall (hrest _ hr.fileAt)
    have hsize := hsound.owned.le
    have h0 := hsound.owned.nonneg
    have hav : FileIo.available (behind s f p) count.toNat =
        min count.toNat ((s.vol.inode p).iSize.toNat - pos) := by
      rw [FileIo.available]
      show min _ ((s.vol.inode p).iSize.toNat - (s.file f).fPos.toNat) = _
      rw [hpos]
      rfl
    have hlength : FileIo.available (behind s f p) count.toNat =
        (slice ((store s).body (s.vol.inode p).iInum) pos count.toNat).length := by
      rw [length_slice, hlen, hav]
    have hsame : { s.vol.setInode p (s.vol.inode p) with disk := s.vol.disk } = s.vol := by
      simp only [Volume.setInode, Function.update_eq_self]
    refine ⟨hsame, ⟨rfl, rfl, rfl, rfl, fun q => ?_⟩, ?_, ?_, ?_, Int.natCast_nonneg _⟩
    · show (Volume.inode { s.vol.setInode p (s.vol.inode p) with disk := s.vol.disk } q).iInum = _
      rw [hsame]
    · have hposition := h.position f hf.1
      simp only [behind, maxSize] at hsize h0
      refine ⟨by omega, ?_⟩
      have h31 := hposition.2
      omega
    · rw [Int.toNat_natCast]
      refine map_range_slice hlength fun i hi => ?_
      have hin : pos + i < (s.vol.inode p).iSize.toNat := by omega
      rw [store_body, hr.body hes, getElem?_bytesOf hin]
      show _ = some (got i)
      rw [hbytes i hi]
      show _ = some (fileByte s.vol.disk (s.vol.inode p) ((s.file f).fPos.toNat + i))
      rw [hpos]
      rfl
    · rw [Int.toNat_natCast]
      exact hlength

/-- sys_write lays its bytes over the file. -/
theorem Good.sysWrite (h : Good s) {ptrs : Pointers} (hf : OpenAt s fd f)
    (hrest : restBytes (s.file f).fPos.toNat count.toNat ≤ 1024)
    (hwrite : WriteThrough.sysWrite fuel s fd count.toNat found usr ptrs = .ok (ret, s')) :
    Seen s (.write fd count found usr ptrs ret) s' := by
  have hlive : ∀ g, s.filp fd = some g → g ∈ s.files := by
    intro g hg
    exact Option.some.inj (hf.2.symm.trans hg) ▸ hf.1
  have hinv := h.inv.sysWrite hlive hwrite
  obtain ⟨es, hes⟩ := h.inv.indexed
  obtain ⟨d, p, hr⟩ := h.reaches hes hf.1
  have hopened := hr.opened hf.1
  have hposition := h.position f hf.1
  obtain ⟨pos, hpos⟩ := Int.eq_ofNat_of_zero_le hposition.1
  obtain ⟨data, hdata⟩ : ∃ data, data = (List.range count.toNat).map usr := ⟨_, rfl⟩
  have hlen : data.length = count.toNat := by
    rw [hdata, List.length_map, List.length_range]
  -- the file has the bytes spliced in, the position is behind them, and all else is unseen
  suffices hdone : ret = count.toNat ∧ Moved s s' f ((s.file f).fPos + count.toNat) ∧
      FileIo.Position ((s.file f).fPos + count.toNat) ∧ s'.vol.disk 1 = s.vol.disk 1 ∧
      AllTrimmed s'.vol.disk ∧ numberOf s'.vol.disk = numberOf s.vol.disk ∧
      bodyOn s'.vol.disk = Function.update (bodyOn s.vol.disk) (s.vol.inode p).iInum
        (splice 0 (bodyOn s.vol.disk (s.vol.inode p).iInum) pos data) by
    obtain ⟨hret, hmoved, hend, hsuper, htrim, hnames, hbodies⟩ := hdone
    obtain ⟨hgood, hfd, hplace⟩ := h.moved hes hf.1 hr hmoved hend hsuper htrim hinv
    have heqs : store s' = ((store s).setBody (s.vol.inode p).iInum
        (splice 0 ((store s).body (s.vol.inode p).iInum) pos data)).attach f
          (s.vol.inode p).iInum (pos + data.length) := by
      refine Store.ext ?_ ?_ ?_ ?_
      · rw [Store.attach_names, Store.setBody_names, store_names, store_names, hnames]
      · rw [Store.attach_body, Store.setBody_body, store_body, store_body, hbodies]
      · have hnat : ((s.file f).fPos + count.toNat).toNat = pos + data.length := by omega
        rw [Store.attach_opened, Store.setBody_opened, hplace, hnat]
      · rw [Store.attach_fd, Store.setBody_fd, hfd]
    have hlength : ret = data.length := by omega
    refine ⟨hgood, ?_⟩
    rw [heqs, event, ← hdata, hlength]
    refine .write hf.2 ?_
    rw [hopened, hpos]
    rfl
  simp only [WriteThrough.sysWrite, bind_eq_ok, deref_eq_ok] at hwrite
  obtain ⟨f', hf', d', hd', hwrite⟩ := hwrite
  obtain rfl : f = f' := Option.some.inj (hf.2.symm.trans hf')
  obtain rfl : d = d' := Option.some.inj (hr.dentry.symm.trans hd')
  split_ifs at hwrite with hcount
  · simp only [withPage_eq_ok, pure_eq_ok, Except.ok.injEq, Prod.mk.injEq] at hwrite
    obtain ⟨-, rfl, rfl⟩ := hwrite
    have hnil : data = [] := List.length_eq_zero_iff.mp (by omega)
    rw [hcount, add_zero]
    refine ⟨rfl, ⟨rfl, rfl, rfl, ?_, fun _ => rfl⟩, hposition, rfl, h.trimmed, rfl, ?_⟩
    · rw [Function.update_eq_self]
    · rw [splice, if_pos hnil, Function.update_eq_self]
  · simp only [bind_eq_ok, deref_eq_ok, pure_eq_ok, Except.ok.injEq, Prod.mk.injEq] at hwrite
    obtain ⟨p', hp', ⟨bytes, o⟩, hcall, rfl, hs'⟩ := hwrite
    obtain rfl : p = p' := Option.some.inj (hr.inode.symm.trans hp')
    have hv := hes.cached.through
    have hused := hv.used p hr.mem
    have hsame := hv.same p hr.mem
    have hpositive : 0 < count.toNat := by omega
    have hfirst : firstBytes pos count.toNat ≤ 1024 - pos % 1024 := min_le_right _ _
    have hsplit := first_add_rest pos count.toNat
    have hrest' : restBytes pos count.toNat ≤ 1024 := by
      rw [hpos] at hrest
      exact hrest
    obtain ⟨rfl, hmove, hbound, buf, hput, hbuf⟩ :=
      sysWrite_data (hr.sound h hf.1) hpositive hrest hcall
    have hmove' : o.fPos = (s.file f).fPos + count.toNat := hmove
    have hbound' : (s.file f).fPos + count.toNat ≤ maxSize := hbound
    have hput' : Zone.write s.vol.disk (s.vol.inode p) pos buf count.toNat ptrs =
        .ok (count.toNat, o.disk, o.inode) := hpos ▸ hput
    have hfile : (s.vol.inode p).iInum ∈ numbersOn s.vol.disk :=
      (mem_numbersOn hv hes.entries.toNamed).mpr hr.named
    obtain ⟨-, hspliced, htrim⟩ := write_splices hv.table hused hsame (h.trimmed _ hfile)
      hpositive (by omega) hrest' hput'
    have hspared := Table.write_spares hv.table hused hsame hput'
    have hsrc : (List.range count.toNat).map buf = data := by
      rw [hdata]
      exact List.map_congr_left fun i hi => hbuf i (List.mem_range.mp hi)
    have hdisk : s'.vol.disk = o.disk := by rw [← hs']; rfl
    have hentries : Entries s'.vol es := by
      have hentries := hes.entries.write hv hr.mem hr.notRoot hput'
      rw [← hs']
      exact hentries
    have hspared' : Spared s.vol.disk s'.vol.disk (· ≠ (s.vol.inode p).iInum) := hdisk ▸ hspared
    obtain ⟨hnames, hbodies, hall⟩ := hspared'.rewritten hv hes.entries hinv.kept.cached.through
      hentries hr.named (by rw [hdisk]; exact htrim)
    refine ⟨rfl, ⟨?_, ?_, ?_, ?_, fun q => ?_⟩, ⟨by omega, ?_⟩, hspared'.super, hall h.trimmed,
      hnames, ?_⟩
    · rw [← hs']
      rfl
    · rw [← hs']
      rfl
    · rw [← hs']
      rfl
    · rw [← hs', ← hmove']
      rfl
    · rw [← hs']
      show ((s.vol.setInode p o.inode).inode q).iInum = _
      by_cases hq : q = p
      · rw [hq]
        simp only [Volume.setInode, Function.update_self]
        exact (write_same hput').iInum
      · exact congrArg Inode.iInum (Function.update_of_ne hq ..)
    · simp only [maxSize] at hbound'
      omega
    · rw [hbodies, hdisk, hspliced, hsrc, bodyOn, if_pos hfile]

/-- sys_lseek moves the position to where it says. -/
theorem Good.sysLseek (h : Good s) {offset whence : BitVec 32} (hf : OpenAt s fd f)
    (hfit : ∀ o, FileAt s f o → FileIo.Fitting o (.lseek offset whence))
    (hseek : WriteThrough.sysLseek s fd offset.toInt whence.toInt = .ok (ret, s')) :
    Seen s (.lseek fd offset whence ret) s' := by
  have hinv := h.inv.sysLseek hseek
  obtain ⟨es, hes⟩ := h.inv.indexed
  obtain ⟨d, p, hr⟩ := h.reaches hes hf.1
  have hopened := hr.opened hf.1
  have htarget := hfit _ hr.fileAt
  have hposition := h.position f hf.1
  have hlen : (((store s).body (s.vol.inode p).iInum).length : Int) = (s.vol.inode p).iSize := by
    rw [store_body, hr.body hes, length_bytesOf]
    exact Int.toNat_of_nonneg (hr.sound h hf.1).owned.nonneg
  simp only [WriteThrough.sysLseek, bind_eq_ok, deref_eq_ok] at hseek
  obtain ⟨f', hf', hseek⟩ := hseek
  obtain rfl : f = f' := Option.some.inj (hf.2.symm.trans hf')
  -- every known origin: the position is set to the target
  have hset : ∀ origin, originOf whence.toInt = some origin → FileIo.Position ret →
      ret = originAt ((store s).body (s.vol.inode p).iInum) (s.file f).fPos.toNat origin +
        offset.toInt → s' = setPos s f ret → Seen s (.lseek fd offset whence ret) s' := by
    intro origin horigin hpos heq hs'
    have hmoved : Moved s s' f ret := by
      rw [hs']
      exact ⟨rfl, rfl, rfl, rfl, fun _ => rfl⟩
    obtain ⟨hgood, heqs⟩ := h.attach hes hf.1 hr hmoved hpos (by rw [hs']; rfl) hinv
    refine ⟨hgood, ?_⟩
    obtain ⟨pos, rfl⟩ := Int.eq_ofNat_of_zero_le hpos.1
    rw [heqs, event, horigin]
    exact .seek hf.2 hopened heq
  simp only [FileIo.Fitting, FileIo.target] at htarget
  split_ifs at hseek htarget with hstart hhere hfinish
  · simp only [pure_eq_ok, Except.ok.injEq, Prod.mk.injEq] at hseek
    obtain ⟨rfl, rfl⟩ := hseek
    refine hset .start (by rw [originOf, if_pos hstart]) (htarget _ rfl) ?_ rfl
    rw [originAt, zero_add]
  · simp only [pure_eq_ok, Except.ok.injEq, Prod.mk.injEq] at hseek
    obtain ⟨rfl, rfl⟩ := hseek
    have hpos := htarget _ rfl
    simp only [behind] at hpos
    have hwrap : wrap ((s.file f).fPos + offset.toInt) = (s.file f).fPos + offset.toInt :=
      wrap_of_range (by have := hpos.1; omega) hpos.2
    refine hset .here (by rw [originOf, if_neg hstart, if_pos hhere]) ?_ ?_ rfl
    · rw [hwrap]
      exact hpos
    · rw [hwrap, originAt, Int.toNat_of_nonneg hposition.1]
  · simp only [bind_eq_ok, deref_eq_ok, pure_eq_ok, Except.ok.injEq, Prod.mk.injEq] at hseek
    obtain ⟨d', hd', p', hp', rfl, rfl⟩ := hseek
    obtain rfl : d = d' := Option.some.inj (hr.dentry.symm.trans hd')
    obtain rfl : p = p' := Option.some.inj (hr.inode.symm.trans hp')
    have hpos := htarget _ rfl
    simp only [behind] at hpos
    have hwrap : wrap ((s.vol.inode p).iSize + offset.toInt) =
        (s.vol.inode p).iSize + offset.toInt :=
      wrap_of_range (by have := hpos.1; omega) hpos.2
    refine hset .finish (by rw [originOf, if_neg hstart, if_neg hhere, if_pos hfinish]) ?_ ?_ rfl
    · rw [hwrap]
      exact hpos
    · rw [hwrap, originAt, hlen]
  · simp only [pure_eq_ok, Except.ok.injEq, Prod.mk.injEq] at hseek
    obtain ⟨rfl, rfl⟩ := hseek
    refine ⟨h, ?_⟩
    rw [event, originOf, if_neg hstart, if_neg hhere, if_neg hfinish]
    exact .idle

/-- sys_truncate that cuts nothing is not seen. -/
theorem Good.sysTruncate (h : Good s) {pathname : CStr} {length : Int}
    (hplain : Polite s (.truncate pathname length env))
    (htrunc : sysTruncate s pathname length env = .ok (ret, s')) :
    Seen s (.truncate pathname length env ret) s' := by
  obtain ⟨hready, hwhole, -⟩ := hplain
  have hinv := h.inv.sysTruncate hready hwhole htrunc
  obtain ⟨es, hes⟩ := h.inv.indexed
  obtain ⟨path, r, hpath, hopen⟩ := sysTruncate_uncut h.inv.kept hready hwhole htrunc
  have hsame := openPath_sameFiles hopen
  obtain ⟨hgood, heqs⟩ := h.unseen hes (hes.openPath (hready path hpath) hopen) hsame.files
    (fun g _ => by rw [hsame.file]) (fun x hx hne => stays_openPath hes.cached hx hne hopen)
    (openPath_spares hes hopen) hinv
  have hstore : store s' = store s := by
    rw [heqs, hsame.filp, ← store_fd s]
  refine ⟨hgood, ?_⟩
  rw [hstore, event]
  exact .idle

theorem Indexed.sound (h : Indexed s es) : RootDirectory.Sound s.vol.disk := by
  have hv := h.cached.through
  have hsame := hv.same .root hv.root.1
  rw [hv.root.2] at hsame
  refine ⟨hv.table, h.entries.zero, es, ?_, h.entries.plain, h.entries.linked⟩
  rw [hsame]
  exact listing_frame h.entries.listing rfl rfl fun _ _ => rfl

/-- A restart finds the files of the disk, and has none of them open. -/
theorem Good.restart (h : Good s) {memory : FsState} {ptrs : Pointers}
    (hinit : fsInit memory s.vol.disk ptrs = .ok s') : Seen s (.restart memory ptrs) s' := by
  obtain ⟨es, hes⟩ := h.inv.indexed
  have hinv : UserPaths.Inv s' := .fsInit (fun _ => Indexed.sound hes) hinit
  have hdisk : s'.vol.disk = s.vol.disk := by
    have hformat := fsInit_formatted hinit
    rw [formatted, if_pos h.magic, pure_eq_ok, Except.ok.injEq] at hformat
    exact hformat.symm
  obtain ⟨-, -, -, -, -, -, hfiles, hfilp⟩ := fsInit_ok hinit
  have hnone : ∀ f, f ∉ s'.files := by
    intro f hf
    rw [hfiles] at hf
    cases hf
  refine ⟨⟨hinv, fun f hf => absurd hf (hnone f), fun f hf => absurd hf (hnone f), ?_, ?_⟩, ?_⟩
  · rw [hdisk]
    exact h.trimmed
  · rw [hdisk]
    exact h.magic
  have hstore : store s' = { store s with opened := fun _ => none, fd := fun _ => none } := by
    refine Store.ext ?_ ?_ (funext fun f => store_closed (hnone f)) ?_
    · rw [store_names, hdisk, ← store_names s]
    · rw [store_body, hdisk, ← store_body s]
    · rw [store_fd, hfilp]
  rw [hstore, event]
  exact .restart

end Calls

/-! ## Every call -/

section Steps

variable {memory : FsState} {disk : Disk} {ptrs : Pointers}

/-- One step for each call. -/
theorem Good.step {a : Act} (h : Good s) (hplain : Plain s a) (st : Step s a s') : Seen s a s' := by
  cases st with
  | «open» hopen => exact h.sysOpen hplain hopen
  | close hclose =>
    obtain ⟨f, hf, halone⟩ := hplain
    exact h.sysClose hf halone hclose
  | truncate htrunc => exact h.sysTruncate hplain htrunc
  | read hread =>
    obtain ⟨f, hf, hrest⟩ := hplain
    exact h.sysRead hf hrest hread
  | write hwrite =>
    obtain ⟨f, hf, hrest⟩ := hplain
    exact h.sysWrite hf hrest hwrite
  | lseek hseek =>
    obtain ⟨f, hf, hfit⟩ := hplain
    exact h.sysLseek hf hfit hseek
  | restart hinit => exact h.restart hinit

/-- A disk that fs_init can start from: one without a file system, or a sound one with trimmed
files. -/
def Usable (disk : Disk) : Prop :=
  wordAt (byteAt (disk 1)) 0 4 = superMagic → RootDirectory.Sound disk ∧ AllTrimmed disk

theorem AllTrimmed.mkfs {disk' : Disk} (h : Layout.mkfs disk ptrs = .ok disk') :
    AllTrimmed disk' := by
  have hself : stored disk' 1 = onDisk mkfsRoot :=
    stored_writeInode h ⟨by decide, by decide, by decide, by decide, fun _ => by simp [mkfsRoot]⟩
  have hnone : numbersOn disk' = [] := by
    rw [numbersOn, entriesOn, hself]
    rfl
  intro n hn
  rw [hnone] at hn
  cases hn

theorem Good.fsInit (hdisk : Usable disk) (hinit : fsInit memory disk ptrs = .ok s) : Good s := by
  have hinv : UserPaths.Inv s := .fsInit (fun hmagic => (hdisk hmagic).1) hinit
  obtain ⟨-, -, -, -, -, -, hfiles, -⟩ := fsInit_ok hinit
  have hnone : ∀ f, f ∉ s.files := by
    intro f hf
    rw [hfiles] at hf
    cases hf
  refine ⟨hinv, fun f hf => absurd hf (hnone f), fun f hf => absurd hf (hnone f), ?_, ?_⟩
  · have hformat := fsInit_formatted hinit
    rw [formatted] at hformat
    split_ifs at hformat with hmagic
    · simp only [pure_eq_ok, Except.ok.injEq] at hformat
      exact hformat ▸ (hdisk hmagic).2
    · exact AllTrimmed.mkfs hformat
  · simp only [DentryCache.fsInit, bind_eq_ok, access_eq_ok, pure_eq_ok, Except.ok.injEq] at hinit
    obtain ⟨disk', -, _, hknown, inode, -, rfl⟩ := hinit
    have hword : wordAt (byteAt (disk' 1)) 0 4 = wordAt superRecord 0 4 :=
      wordAt_congr fun i hi => hknown (0 + i) (by omega)
    exact hword.trans (by decide)

end Steps

end RxdOs.Fs.FileStore
