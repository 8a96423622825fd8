/- RxdOs/Fs/CacheReach
   source: fs/fs.c, kernel/syscall_impl.c
   digest: The file system calls as a transition system, and the shape of the dentry cache
   that every run from fs_init keeps. -/

import RxdOs.Lib.Execution
import RxdOs.Fs.Open

set_option autoImplicit false
set_option relaxedAutoImplicit false

namespace RxdOs.Fs.CacheReach

open RxdOs.Base.Assert RxdOs.Lib.Execution RxdOs.Fs.Bitmap RxdOs.Fs.Layout RxdOs.Fs.Zone
  RxdOs.Fs.InodeCache RxdOs.Fs.Name RxdOs.Fs.Dir RxdOs.Fs.DentryCache RxdOs.Fs.Open

/-- A system call.  sys_read, sys_write and sys_lseek touch no dentry and no descriptor table;
`io` stands for whatever they do to the volume and to the file objects. -/
inductive Call
  | open (pathname : CStr) (flags : UInt32) (env : Env)
  | close (fd : Fin nrMaxOpen) (env : Env)
  | truncate (pathname : CStr) (length : Int) (env : Env)
  | link (oldpath newpath : CStr) (env : Env)
  | io (vol : Volume) (file : Nat → File)

def call (s : FsState) : Call → Kernel FsState
  | .open pathname flags env => do
    let (_, s) ← sysOpen s pathname flags env
    pure s
  | .close fd env => sysClose s fd env
  | .truncate pathname length env => do
    let (_, s) ← sysTruncate s pathname length env
    pure s
  | .link oldpath newpath env => do
    let (_, s) ← sysLink s oldpath newpath env
    pure s
  | .io vol file => pure { s with vol := vol, file := file }

def Step (s : FsState) (a : Call) (s' : FsState) : Prop := call s a = .ok s'

/-- The dentry cache is root_dentry with dentries that hang below it, or below nothing. -/
structure Rooted (s : FsState) : Prop where
  nodup : s.dentryList.Nodup
  root : .root ∈ s.dentryList
  name : (s.dentry .root).dName = rootName
  tied : (s.dentry .root).dInode ≠ none → (s.dentry .root).dParent = some .root
  flat : ∀ d ∈ s.dentryList, d ≠ .root →
    (s.dentry d).dParent = none ∨ (s.dentry d).dParent = some .root
  files : s.files.Nodup

variable {s s' : FsState} {env : Env}

/-- Only the list, the names and the links matter. -/
theorem Rooted.congr (h : Rooted s) (hlist : s'.dentryList = s.dentryList)
    (hname : ∀ d, (s'.dentry d).dName = (s.dentry d).dName)
    (hparent : ∀ d, (s'.dentry d).dParent = (s.dentry d).dParent)
    (hinode : ∀ d, (s'.dentry d).dInode = (s.dentry d).dInode) (hfiles : s'.files.Nodup) :
    Rooted s' := by
  refine ⟨hlist ▸ h.nodup, hlist ▸ h.root, by rw [hname, h.name], ?_, ?_, hfiles⟩
  · rw [hinode, hparent]
    exact h.tied
  · intro d hd hne
    rw [hparent]
    exact h.flat d (hlist ▸ hd) hne

/-- Calls that leave the dentries alone. -/
theorem Rooted.same (h : Rooted s) (hlist : s'.dentryList = s.dentryList)
    (hdentry : s'.dentry = s.dentry) (hfiles : s'.files = s.files) : Rooted s' :=
  h.congr hlist (fun _ => by rw [hdentry]) (fun _ => by rw [hdentry]) (fun _ => by rw [hdentry])
    (hfiles ▸ h.files)

theorem Rooted.addRef (h : Rooted s) (d : DentryPtr) (n : Int) : Rooted (addRef s d n) := by
  refine h.congr rfl ?_ ?_ ?_ h.files <;>
  · intro x
    rw [addRef_dentry]

theorem Rooted.addDentry (h : Rooted s) {d : DentryPtr} (hd : d ∉ s.dentryList) (dName : DName)
    (p : InodePtr) : Rooted (addDentry s d .root dName p) := by
  have hroot : d ≠ .root := fun heq => hd (heq ▸ h.root)
  have hother : ∀ x, x ≠ d → (DentryCache.addDentry s d .root dName p).dentry x =
      { s.dentry x with dRefcnt := (s.dentry x).dRefcnt + if x = .root then 1 else 0 } :=
    fun x hx => addDentry_of_ne hroot hx
  refine ⟨List.nodup_cons.mpr ⟨hd, h.nodup⟩, List.mem_cons_of_mem _ h.root, ?_, ?_, ?_, h.files⟩
  · rw [hother _ hroot.symm]
    exact h.name
  · rw [hother _ hroot.symm]
    exact h.tied
  · intro x hx hne
    by_cases hxd : x = d
    · rw [hxd, addDentry_self hroot]
      exact .inr rfl
    · rw [hother x hxd]
      exact h.flat x ((List.mem_cons.mp hx).resolve_left hxd) hne

theorem Rooted.unlinkDentry (h : Rooted s) (d parent : DentryPtr) (p : InodePtr) :
    Rooted (unlinkDentry s d parent p) := by
  refine ⟨h.nodup, h.root, ?_, ?_, ?_, h.files⟩
  · by_cases hd : DentryPtr.root = d
    · rw [← hd, unlinkDentry_self]
      exact h.name
    · rw [unlinkDentry_of_ne hd]
      exact h.name
  · by_cases hd : DentryPtr.root = d
    · rw [← hd, unlinkDentry_self]
      exact fun hne => absurd rfl hne
    · rw [unlinkDentry_of_ne hd]
      exact h.tied
  · intro x hx hne
    by_cases hxd : x = d
    · rw [hxd, unlinkDentry_self]
      exact .inl rfl
    · rw [unlinkDentry_of_ne hxd]
      exact h.flat x hx hne

theorem Rooted.erase (h : Rooted s) {d : DentryPtr} (hd : d ≠ .root) {vol : Volume} :
    Rooted { s with vol := vol, dentryList := s.dentryList.erase d } :=
  ⟨h.nodup.erase d, (List.mem_erase_of_ne hd.symm).mpr h.root, h.name, h.tied,
    fun x hx => h.flat x (List.mem_of_mem_erase hx), h.files⟩

theorem Rooted.putDentry (h : Rooted s) {d : DentryPtr} (hput : putDentry s d env = .ok s') :
    Rooted s' := by
  obtain ⟨-, parent, p, -, -, ⟨-, rfl⟩ | ⟨-, hroot, vol, -, rfl⟩⟩ := putDentry_ok hput
  · exact h.unlinkDentry d parent p
  · exact (h.unlinkDentry d parent p).erase hroot

/-- put_dentry only gets through for a listed dentry that hangs below root_dentry. -/
theorem Rooted.parent_of_put (h : Rooted s) {d : DentryPtr} (hd : d ∈ s.dentryList)
    (hput : DentryCache.putDentry s d env = .ok s') : (s.dentry d).dParent = some .root := by
  obtain ⟨-, parent, p, hparent, hp, -⟩ := putDentry_ok hput
  by_cases hroot : d = .root
  · subst hroot
    exact h.tied (by rw [hp]; exact Option.some_ne_none p)
  · rcases h.flat d hd hroot with hnone | hsome
    · rw [hnone] at hparent
      cases hparent
    · exact hsome

theorem Rooted.closeUp (h : Rooted s) {fuel : Nat} {d : DentryPtr}
    (hclose : closeUp env fuel s d = .ok s') : Rooted s' := by
  induction fuel generalizing s d with
  | zero => cases hclose
  | succ fuel ih =>
    rw [DentryCache.closeUp] at hclose
    split_ifs at hclose
    · simp only [pure_eq_ok, Except.ok.injEq] at hclose
      exact hclose ▸ h
    · simp only [bind_eq_ok] at hclose
      obtain ⟨s₁, hput, parent, -, hclose⟩ := hclose
      exact ih (h.putDentry hput) hclose

theorem Rooted.close (h : Rooted s) {d : DentryPtr} (hclose : close s d env = .ok s') :
    Rooted s' := by
  simp only [DentryCache.close, bind_eq_ok] at hclose
  obtain ⟨s₁, hput, hclose⟩ := hclose
  split_ifs at hclose
  · simp only [bind_eq_ok] at hclose
    obtain ⟨parent, -, hclose⟩ := hclose
    exact (h.putDentry hput).closeUp hclose
  · simp only [pure_eq_ok, Except.ok.injEq] at hclose
    exact hclose ▸ h.putDentry hput

theorem Rooted.getDentry (h : Rooted s) {dname : QStr} {r : Option DentryPtr}
    (hget : getDentry s .root dname env = .ok (r, s')) : Rooted s' := by
  obtain ⟨dir, -, ⟨d, -, -, rfl⟩ | ⟨-, pos, inum, -, ⟨-, -, rfl⟩ |
    ⟨-, inode, vol, d, dName, -, -, hd, -, -, rfl⟩⟩⟩ := getDentry_ok hget
  · exact h.addRef d 1
  · exact h
  · have hvol : Rooted { s with vol := vol } := h.same rfl rfl rfl
    exact hvol.addDentry hd dName inode

/-- root_dentry is named "/", which no file name is. -/
theorem qstrcmp_rootName {name : CStr} (hname : IsName name) :
    qstrcmp rootName.toQStr ⟨name.length, name⟩ ≠ 0 := by
  intro hcmp
  obtain ⟨hlen, hcmp⟩ := qstrcmp_eq_zero hcmp
  have hhead : charAt [slash] 0 = charAt name 0 := strncmp_head hcmp one_ne_zero
  obtain ⟨c, hc⟩ := List.length_eq_one_iff.mp hlen.symm
  rw [hc] at hhead
  have hslash : slash = c := hhead
  exact (hname c (by rw [hc]; exact List.mem_singleton_self c)).2 hslash.symm

theorem Rooted.find_ne_root (h : Rooted s) {name : CStr} (hname : IsName name) {d : DentryPtr}
    (hfind : findDentry s .root ⟨name.length, name⟩ = some d) : d ≠ .root := by
  rintro rfl
  obtain ⟨-, hcmp, -, -⟩ := findDentry_some hfind
  rw [h.name] at hcmp
  exact qstrcmp_rootName hname hcmp

theorem Rooted.createDentry (h : Rooted s) {dname : QStr} {p : InodePtr} {r : Option DentryPtr}
    (hcreate : createDentry s .root dname p env = .ok (r, s')) : Rooted s' := by
  obtain ⟨d, hget, -⟩ | ⟨-, dir, name, ret, disk, dirInode, d, dName, -, -, -, -, hd, -, -,
    hcount⟩ := createDentry_ok hcreate
  · exact h.getDentry hget
  · obtain ⟨disk', -, rfl⟩ := countLink_ok hcount
    have hvol : Rooted { s with vol := { s.vol.setInode dir dirInode with disk := disk } } :=
      h.same rfl rfl rfl
    exact (hvol.addDentry hd dName p).same rfl rfl rfl

theorem Rooted.openLast (h : Rooted s) {filename : QStr} {flags : UInt32} {r : Option DentryPtr}
    (hlast : openLast s .root filename flags env = .ok (r, s')) : Rooted s' := by
  obtain ⟨d, -, hget⟩ | ⟨-, ⟨-, -, rfl⟩ | ⟨-, d, p, s₁, -, hnew, hcreate⟩⟩ := openLast_ok hlast
  · exact h.getDentry hget
  · exact h
  · obtain ⟨vol, -, rfl⟩ := newInodeOf_ok hnew
    refine Rooted.createDentry ?_ hcreate
    exact h.same rfl rfl rfl

theorem Rooted.opendir (h : Rooted s) {path : Pathname} {r : Option DentryPtr}
    (hopen : opendir s path env = .ok (r, s')) : Rooted s' := by
  obtain ⟨-, ⟨-, -, rfl⟩ | ⟨-, -, -, hclose⟩⟩ := opendir_ok hopen
  · exact h.addRef .root 1
  · exact (h.addRef .root 1).close hclose

theorem Rooted.openPath (h : Rooted s) {path : Pathname} {r : Option DentryPtr}
    (hopen : openPath s path env = .ok (r, s')) : Rooted s' := by
  obtain ⟨-, ⟨-, -, rfl⟩ | ⟨-, ⟨d, -, -, hget⟩ | ⟨-, -, hclose⟩⟩⟩ := openPath_ok hopen
  · exact h.addRef .root 1
  · exact (h.addRef .root 1).getDentry hget
  · exact (h.addRef .root 1).close hclose

theorem Rooted.withSlot (h : Rooted s) {f : Nat} (hfresh : f ∉ s.files) (slot : Fin nrMaxOpen)
    (flags : UInt32) : Rooted (withSlot s slot f flags) :=
  h.congr rfl (fun _ => rfl) (fun _ => rfl) (fun _ => rfl) (List.nodup_cons.mpr ⟨hfresh, h.files⟩)

theorem Rooted.allocFile (h : Rooted s) {slot : Fin nrMaxOpen} {flags : UInt32} {f : Nat}
    (halloc : allocFile s slot flags env = .ok (f, s')) : Rooted s' := by
  obtain ⟨-, hfresh, rfl⟩ := allocFile_ok halloc
  exact h.withSlot hfresh slot flags

theorem Rooted.freeFile (h : Rooted s) {f : Nat} (hfree : freeFile s f = .ok s') : Rooted s' := by
  obtain ⟨-, rfl⟩ := freeFile_ok hfree
  exact h.congr rfl (fun _ => rfl) (fun _ => rfl) (fun _ => rfl) (h.files.erase f)

theorem Rooted.sysOpen (h : Rooted s) {pathname : CStr} {flags : UInt32}
    {r : Option (Fin nrMaxOpen)} (hopen : sysOpen s pathname flags env = .ok (r, s')) :
    Rooted s' := by
  obtain ⟨path, -, ⟨-, -, rfl⟩ | ⟨slot, f, s₁, -, halloc, hcases⟩⟩ := sysOpen_ok hopen
  · exact h
  have h₁ := h.allocFile halloc
  obtain ⟨s₂, hdir, hfree, -⟩ | ⟨s₂, s₃, dentry, hdir, -, hlast, hend⟩ := hcases
  · exact (h₁.opendir hdir).freeFile hfree
  have h₃ := (h₁.opendir hdir).openLast hlast
  obtain ⟨-, hfree, -⟩ | ⟨d, -, -, rfl⟩ := hend
  · exact h₃.freeFile hfree
  · exact h₃.same rfl rfl rfl

theorem Rooted.sysClose (h : Rooted s) {fd : Fin nrMaxOpen}
    (hclose : sysClose s fd env = .ok s') : Rooted s' := by
  obtain ⟨f, d, s₁, -, -, hclose, hfree⟩ := sysClose_ok hclose
  exact (h.close hclose).freeFile hfree

theorem Rooted.sysTruncate (h : Rooted s) {pathname : CStr} {length r : Int}
    (htrunc : sysTruncate s pathname length env = .ok (r, s')) : Rooted s' := by
  simp only [Open.sysTruncate, bind_eq_ok] at htrunc
  obtain ⟨path, -, ⟨dentry, s₁⟩, hopen, htrunc⟩ := htrunc
  have h₁ := h.openPath hopen
  cases dentry with
  | none =>
    simp only [pure_eq_ok, Except.ok.injEq, Prod.mk.injEq] at htrunc
    exact htrunc.2 ▸ h₁
  | some d =>
    simp only [bind_eq_ok] at htrunc
    obtain ⟨p, -, htrunc⟩ := htrunc
    split_ifs at htrunc
    · simp only [bind_eq_ok, pure_eq_ok, Except.ok.injEq, Prod.mk.injEq] at htrunc
      obtain ⟨⟨disk, inode⟩, -, -, rfl⟩ := htrunc
      exact h₁.same rfl rfl rfl
    · simp only [pure_eq_ok, Except.ok.injEq, Prod.mk.injEq] at htrunc
      exact htrunc.2 ▸ h₁

theorem Rooted.sysLink (h : Rooted s) {oldpath newpath : CStr} {r : Int}
    (hlink : sysLink s oldpath newpath env = .ok (r, s')) : Rooted s' := by
  simp only [Open.sysLink, bind_eq_ok] at hlink
  obtain ⟨path, -, path', -, ⟨oldDentry, s₁⟩, hopen, hlink⟩ := hlink
  have h₁ := h.openPath hopen
  split_ifs at hlink
  · simp only [pure_eq_ok, Except.ok.injEq, Prod.mk.injEq] at hlink
    exact hlink.2 ▸ h₁
  · simp only [bind_eq_ok] at hlink
    obtain ⟨⟨newDir, s₂⟩, hdir, hlink⟩ := hlink
    have h₂ := h₁.opendir hdir
    cases newDir with
    | none =>
      simp only [pure_eq_ok, Except.ok.injEq, Prod.mk.injEq] at hlink
      exact hlink.2 ▸ h₂
    | some newDir =>
      simp only [bind_eq_ok, pure_eq_ok, Except.ok.injEq, Prod.mk.injEq] at hlink
      obtain ⟨⟨newDentry, s₃⟩, hget, -, rfl⟩ := hlink
      obtain ⟨-, ⟨-, hroot, -⟩ | ⟨-, hnone, -⟩⟩ := opendir_ok hdir
      · obtain rfl := Option.some.inj hroot
        exact h₂.getDentry hget
      · cases hnone

theorem Rooted.step (h : Rooted s) {a : Call} (st : Step s a s') : Rooted s' := by
  cases a with
  | «open» pathname flags env =>
    simp only [Step, call, bind_eq_ok, pure_eq_ok, Except.ok.injEq] at st
    obtain ⟨⟨r, s₁⟩, hopen, rfl⟩ := st
    exact h.sysOpen hopen
  | close fd env => exact h.sysClose st
  | truncate pathname length env =>
    simp only [Step, call, bind_eq_ok, pure_eq_ok, Except.ok.injEq] at st
    obtain ⟨⟨r, s₁⟩, htrunc, rfl⟩ := st
    exact h.sysTruncate htrunc
  | link oldpath newpath env =>
    simp only [Step, call, bind_eq_ok, pure_eq_ok, Except.ok.injEq] at st
    obtain ⟨⟨r, s₁⟩, hlink, rfl⟩ := st
    exact h.sysLink hlink
  | io vol file =>
    simp only [Step, call, pure_eq_ok, Except.ok.injEq] at st
    subst st
    exact h.same rfl rfl rfl

/-- What fs_init leaves: one dentry, one inode, no file. -/
theorem fsInit_ok {memory : FsState} {disk : Disk} {ptrs : Pointers}
    (h : fsInit memory disk ptrs = .ok s) : s.dentryList = [.root] ∧
      s.dentry .root = ⟨some .root, rootName, some .root, 1⟩ ∧ s.vol.inodeList = [.root] ∧
      (s.vol.inode .root).iInum = 1 ∧ (s.vol.inode .root).iRefcnt = 1 ∧
      (∀ p, p ≠ .root → s.vol.inode p = memory.vol.inode p) ∧ s.files = [] ∧
      s.filp = fun _ => none := by
  simp only [fsInit, bind_eq_ok, access_eq_ok, pure_eq_ok, Except.ok.injEq] at h
  obtain ⟨disk', -, _, -, inode, hread, rfl⟩ := h
  obtain ⟨-, -, -, hinum, -, -⟩ := readInode_ok hread
  refine ⟨rfl, ?_, rfl, ?_, ?_, ?_, rfl, rfl⟩
  · simp [dlinkInode, DentryCache.addRef, addInodeRef, FsState.setDentry]
  · simp [dlinkInode, DentryCache.addRef, addInodeRef, FsState.setDentry, Volume.setInode, hinum]
  · simp [dlinkInode, DentryCache.addRef, addInodeRef, FsState.setDentry, Volume.setInode]
  · intro p hp
    simp [dlinkInode, DentryCache.addRef, addInodeRef, FsState.setDentry, Volume.setInode, hp]

theorem Rooted.fsInit {memory : FsState} {disk : Disk} {ptrs : Pointers}
    (h : fsInit memory disk ptrs = .ok s) : Rooted s := by
  obtain ⟨hlist, hroot, -, -, -, -, hfiles, -⟩ := fsInit_ok h
  refine ⟨by simp [hlist], by simp [hlist], by rw [hroot], fun _ => by rw [hroot], ?_,
    by simp [hfiles]⟩
  intro d hd hne
  rw [hlist] at hd
  exact absurd (List.mem_singleton.mp hd) hne

/-- Every run from fs_init keeps the cache rooted. -/
theorem Rooted.reach {memory : FsState} {disk : Disk} {ptrs : Pointers} {s₀ : FsState}
    (hinit : DentryCache.fsInit memory disk ptrs = .ok s₀) (h : Reach Step s₀ s) : Rooted s :=
  h.inv (fun _ _ _ hs st => hs.step st) (.fsInit hinit)

end RxdOs.Fs.CacheReach
