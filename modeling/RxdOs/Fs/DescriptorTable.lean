/- RxdOs/Fs/DescriptorTable
   source: fs/fs.c (sys_open, sys_close), include/proc.h
   digest: When the descriptor table says which descriptors are open: exactly as long as
   nothing is closed and no sys_open fails after it has taken a slot. -/

import RxdOs.Fs.CacheReach

set_option autoImplicit false
set_option relaxedAutoImplicit false

namespace RxdOs.Fs.DescriptorTable

open RxdOs.Base.Assert RxdOs.Lib.Execution RxdOs.Fs.InodeCache RxdOs.Fs.Name RxdOs.Fs.Dir
  RxdOs.Fs.DentryCache RxdOs.Fs.Open

/-- A task's view: the state it runs on and the descriptors it holds. -/
structure Session where
  fs : FsState
  opened : Finset (Fin nrMaxOpen)

/-- A system call of the task, with what sys_open returned. -/
inductive Event
  | opened (pathname : CStr) (flags : UInt32) (env : Env) (r : Option (Fin nrMaxOpen))
  | closed (fd : Fin nrMaxOpen) (env : Env)

inductive Step : Session → Event → Session → Prop
  | opened {s : Session} {pathname : CStr} {flags : UInt32} {env : Env} {fd : Fin nrMaxOpen}
      {fs : FsState} : sysOpen s.fs pathname flags env = .ok (some fd, fs) →
      Step s (.opened pathname flags env (some fd)) ⟨fs, insert fd s.opened⟩
  | failed {s : Session} {pathname : CStr} {flags : UInt32} {env : Env} {fs : FsState} :
      sysOpen s.fs pathname flags env = .ok (none, fs) →
      Step s (.opened pathname flags env none) ⟨fs, s.opened⟩
  | closed {s : Session} {fd : Fin nrMaxOpen} {env : Env} {fs : FsState} : fd ∈ s.opened →
      sysClose s.fs fd env = .ok fs → Step s (.closed fd env) ⟨fs, s.opened.erase fd⟩

/-- A slot is used exactly for an open descriptor, by a live file object of its own. -/
structure Law (s : Session) : Prop where
  slots : ∀ i, s.fs.filp i ≠ none ↔ i ∈ s.opened
  live : ∀ i f, s.fs.filp i = some f → f ∈ s.fs.files
  unshared : ∀ i j f, s.fs.filp i = some f → s.fs.filp j = some f → i = j

/-- get_dentry finds the name, cached below root_dentry or in the root directory. -/
def NameFound (fs : FsState) (filename : QStr) (env : Env) : Prop :=
  findDentry (addRef fs .root 1) .root filename ≠ none ∨
    ∃ dir pos inum, (fs.dentry .root).dInode = some dir ∧
      lookupDisk fs dir filename env = .ok (pos, inum) ∧ 0 ≤ pos

/-- The path has no directory to walk, and its file exists or is created. -/
def ReachesFile (fs : FsState) (pathname : CStr) (flags : UInt32) (env : Env) : Prop :=
  ∃ path, kernelString pathname = .ok path ∧ moreDirs (pathFirst (rest path)) = false ∧
    (oCreat flags = true ∨ NameFound fs (lastName path) env)

/-- The calls that keep the table in order: no close, and no sys_open that fails with a slot. -/
def Keeps (s : Session) : Event → Prop
  | .opened pathname flags env _ => freeSlot s.fs = none ∨ ReachesFile s.fs pathname flags env
  | .closed _ _ => False

/-- What callers rely on: the lowest descriptor that is not open, -1 only for want of a slot,
and nothing changed then. -/
def OpenLaw (s : Session) (a : Event) (s' : Session) : Prop :=
  match a with
  | .opened _ _ _ (some fd) => fd ∉ s.opened ∧ ∀ i < fd, i ∈ s.opened
  | .opened _ _ _ none => s.opened = Finset.univ ∧ s'.fs.filp = s.fs.filp ∧ s'.fs.files = s.fs.files
  | .closed _ _ => True

variable {s s' : Session}

/-- A sys_open that got past the slot search: the table holds the new object, and the
descriptor is returned exactly when the file was reached. -/
theorem sysOpen_slot {fs fs' : FsState} {pathname : CStr} {flags : UInt32} {env : Env}
    {r : Option (Fin nrMaxOpen)} {slot : Fin nrMaxOpen} (hslot : freeSlot fs = some slot)
    (h : sysOpen fs pathname flags env = .ok (r, fs')) :
    ∃ f, f ∉ fs.files ∧ fs'.filp = Function.update fs.filp slot (some f) ∧
      ((r = some slot ∧ fs'.files = f :: fs.files ∧ ReachesFile fs pathname flags env) ∨
        r = none ∧ ¬ReachesFile fs pathname flags env) := by
  obtain ⟨path, hpath, ⟨hnone, -⟩ | ⟨slot', f, s₁, hslot', halloc, hcases⟩⟩ := sysOpen_ok h
  · rw [hslot] at hnone
    cases hnone
  obtain rfl : slot = slot' := Option.some.inj (hslot.symm.trans hslot')
  obtain ⟨-, hfresh, rfl⟩ := allocFile_ok halloc
  refine ⟨f, hfresh, ?_⟩
  have hreach : ReachesFile fs pathname flags env → moreDirs (pathFirst (rest path)) = false ∧
      (oCreat flags = true ∨ NameFound fs (lastName path) env) := by
    rintro ⟨path', hpath', hcond⟩
    obtain rfl : path = path' := Except.ok.inj (hpath.symm.trans hpath')
    exact hcond
  obtain ⟨s₂, hdir, hfree, rfl⟩ | ⟨s₂, s₃, dentry, hdir, hroot, hlast, hend⟩ := hcases
  · obtain ⟨-, rfl⟩ := freeFile_ok hfree
    have hsame := opendir_sameFiles hdir
    refine ⟨hsame.filp, .inr ⟨rfl, fun hr => ?_⟩⟩
    obtain ⟨-, ⟨-, hcase, -⟩ | ⟨hmore, -⟩⟩ := opendir_ok hdir
    · cases hcase
    · rw [(hreach hr).1] at hmore
      cases hmore
  have hsame := (opendir_sameFiles hdir).trans (openLast_sameFiles hlast)
  obtain ⟨-, ⟨hmore, -, rfl⟩ | ⟨-, hcase, -⟩⟩ := opendir_ok hdir
  swap
  · cases hcase
  obtain ⟨rfl, hfree, rfl⟩ | ⟨d, rfl, rfl, rfl⟩ := hend
  · obtain ⟨-, rfl⟩ := freeFile_ok hfree
    refine ⟨hsame.filp, .inr ⟨rfl, fun hr => ?_⟩⟩
    obtain ⟨d, hcase, -⟩ | ⟨hget, ⟨hcreat, -⟩ | ⟨-, d, _, _, hcase, -⟩⟩ := openLast_ok hlast
    · cases hcase
    · obtain ⟨dir, hdir', ⟨d, -, hcase, -⟩ | ⟨hfind, pos, inum, hdisk, hneg⟩⟩ := getDentry_ok hget
      · cases hcase
      obtain ⟨hpos, -⟩ | ⟨-, _, _, _, _, -, -, -, -, hcase, -⟩ := hneg
      · obtain hcreat' | hfound | ⟨dir', pos', inum', hdir'', hdisk', hpos'⟩ := (hreach hr).2
        · rw [hcreat] at hcreat'
          cases hcreat'
        · exact hfound hfind
        · rw [addRef_self] at hdir'
          obtain rfl : dir = dir' := Option.some.inj (hdir'.symm.trans hdir'')
          obtain ⟨rfl, -⟩ := Prod.mk.inj (Except.ok.inj (hdisk.symm.trans hdisk'))
          omega
      · cases hcase
    · cases hcase
  · refine ⟨hsame.filp, .inl ⟨rfl, hsame.files, path, hpath, hmore, ?_⟩⟩
    obtain ⟨d', hcase, hget⟩ | ⟨-, ⟨-, hcase, -⟩ | ⟨hcreat, -⟩⟩ := openLast_ok hlast
    · refine .inr ?_
      obtain ⟨dir, hdir', ⟨d'', hfind, -, -⟩ | ⟨-, pos, inum, hdisk, hneg⟩⟩ := getDentry_ok hget
      · exact .inl fun hnone => by
          rw [show findDentry (addRef fs .root 1) .root (lastName path) = _ from hfind] at hnone
          cases hnone
      · obtain ⟨-, hcase', -⟩ | ⟨hpos, -⟩ := hneg
        · cases hcase'
        · rw [addRef_self] at hdir'
          exact .inr ⟨dir, pos, inum, hdir', hdisk, hpos⟩
    · cases hcase
    · exact .inl hcreat

theorem sysOpen_noSlot {fs fs' : FsState} {pathname : CStr} {flags : UInt32} {env : Env}
    {r : Option (Fin nrMaxOpen)} (hslot : freeSlot fs = none)
    (h : sysOpen fs pathname flags env = .ok (r, fs')) : r = none ∧ fs' = fs := by
  obtain ⟨path, -, ⟨-, hr, hfs⟩ | ⟨slot, f, s₁, hslot', -⟩⟩ := sysOpen_ok h
  · exact ⟨hr, hfs⟩
  · rw [hslot] at hslot'
    cases hslot'

/-- Filling the free slot with a fresh object and handing the descriptor out. -/
theorem Law.fill (h : Law s) {slot : Fin nrMaxOpen} {f : Nat} {fs : FsState}
    (hfresh : f ∉ s.fs.files)
    (hfilp : fs.filp = Function.update s.fs.filp slot (some f)) (hfiles : fs.files = f :: s.fs.files) :
    Law ⟨fs, insert slot s.opened⟩ := by
  have hold : ∀ i g, s.fs.filp i = some g → g ≠ f := fun i g hg heq => hfresh (heq ▸ h.live i g hg)
  refine ⟨?_, ?_, ?_⟩
  · intro i
    simp only [hfilp, Function.update_apply, Finset.mem_insert]
    split_ifs with hi
    · simp [hi]
    · simp [hi, ← h.slots i]
  · intro i g hg
    simp only [hfilp, Function.update_apply] at hg
    rw [hfiles]
    split_ifs at hg with hi
    · exact Option.some.inj hg ▸ List.mem_cons_self ..
    · exact List.mem_cons_of_mem _ (h.live i g hg)
  · intro i j g hi hj
    simp only [hfilp, Function.update_apply] at hi hj
    split_ifs at hi hj with hi' hj' hj'
    · rw [hi', hj']
    · exact absurd (Option.some.inj hi).symm (hold j g hj)
    · exact absurd (Option.some.inj hj).symm (hold i g hi)
    · exact h.unshared i j g hi hj

theorem Law.keeps (h : Law s) {a : Event} (hkeeps : Keeps s a) (st : Step s a s') : Law s' := by
  cases st with
  | @opened pathname flags env fd fs hopen =>
    cases hslot : freeSlot s.fs with
    | none => exact absurd (sysOpen_noSlot hslot hopen).1 (Option.some_ne_none fd)
    | some slot =>
      obtain ⟨f, hfresh, hfilp, ⟨hr, hfiles, -⟩ | ⟨hr, -⟩⟩ := sysOpen_slot hslot hopen
      · obtain rfl := Option.some.inj hr
        exact h.fill hfresh hfilp hfiles
      · cases hr
  | @failed pathname flags env fs hopen =>
    cases hslot : freeSlot s.fs with
    | none =>
      obtain ⟨-, rfl⟩ := sysOpen_noSlot hslot hopen
      exact h
    | some slot =>
      obtain ⟨f, -, -, ⟨hr, -⟩ | ⟨-, hnot⟩⟩ := sysOpen_slot hslot hopen
      · cases hr
      · exact absurd (hkeeps.resolve_left (by rw [hslot]; exact Option.some_ne_none slot)) hnot
  | closed hfd hclose => exact hkeeps.elim

/-- Any other call leaves a slot that no open descriptor stands for. -/
theorem Law.breaks (h : Law s) {a : Event} (hkeeps : ¬Keeps s a) (st : Step s a s') : ¬Law s' := by
  intro h'
  cases st with
  | @opened pathname flags env fd fs hopen =>
    refine hkeeps ?_
    cases hslot : freeSlot s.fs with
    | none => exact .inl hslot
    | some slot =>
      obtain ⟨f, -, -, ⟨-, -, hreach⟩ | ⟨hr, -⟩⟩ := sysOpen_slot hslot hopen
      · exact .inr hreach
      · cases hr
  | @failed pathname flags env fs hopen =>
    cases hslot : freeSlot s.fs with
    | none => exact hkeeps (.inl hslot)
    | some slot =>
      obtain ⟨f, -, hfilp, -⟩ := sysOpen_slot hslot hopen
      have hused : fs.filp slot ≠ none := by
        rw [hfilp, Function.update_self]
        exact Option.some_ne_none f
      exact (h.slots slot).mpr ((h'.slots slot).mp hused) (freeSlot_some hslot).1
  | @closed fd env fs hfd hclose =>
    obtain ⟨f, d, s₁, hf, -, hput, hfree⟩ := sysClose_ok hclose
    obtain ⟨-, rfl⟩ := freeFile_ok hfree
    have hused : s₁.filp fd ≠ none := by
      rw [(close_sameFiles hput).filp, hf]
      exact Option.some_ne_none f
    exact absurd ((h'.slots fd).mp hused) (Finset.notMem_erase fd s.opened)

theorem Law.openLaw (h : Law s) (h' : Law s') {a : Event} (st : Step s a s') : OpenLaw s a s' := by
  cases st with
  | @opened pathname flags env fd fs hopen =>
    cases hslot : freeSlot s.fs with
    | none => exact absurd (sysOpen_noSlot hslot hopen).1 (Option.some_ne_none fd)
    | some slot =>
      obtain ⟨hnone, hbelow⟩ := freeSlot_some hslot
      obtain ⟨f, -, -, ⟨hr, -⟩ | ⟨hr, -⟩⟩ := sysOpen_slot hslot hopen
      · obtain rfl := Option.some.inj hr
        exact ⟨fun hmem => (h.slots fd).mpr hmem hnone, fun i hi => (h.slots i).mp (hbelow i hi)⟩
      · cases hr
  | @failed pathname flags env fs hopen =>
    cases hslot : freeSlot s.fs with
    | none =>
      obtain ⟨-, rfl⟩ := sysOpen_noSlot hslot hopen
      refine ⟨Finset.eq_univ_iff_forall.mpr fun i => ?_, rfl, rfl⟩
      exact (h.slots i).mp (freeSlot_none hslot i)
    | some slot =>
      have hbreak : ¬Keeps s (.opened pathname flags env none) := by
        rintro (hnone | hreach)
        · rw [hslot] at hnone
          cases hnone
        · obtain ⟨f, -, -, ⟨hr, -⟩ | ⟨-, hnot⟩⟩ := sysOpen_slot hslot hopen
          · cases hr
          · exact hnot hreach
      exact absurd h' (h.breaks hbreak (.failed hopen))
  | closed hfd hclose => trivial

/-- From an empty table on, the law holds along a run exactly when every call keeps it, and
then sys_open has what follows from it. -/
theorem descriptor_table_law_iff {fs : FsState} (hempty : fs.filp = fun _ => none)
    {tr : List (Event × Session)} (h : Exec Step ⟨fs, ∅⟩ tr) :
    (Always Law ⟨fs, ∅⟩ tr ↔ Guarded Keeps ⟨fs, ∅⟩ tr) ∧
      (Always Law ⟨fs, ∅⟩ tr → Stepwise OpenLaw ⟨fs, ∅⟩ tr) := by
  have hstart : Law ⟨fs, ∅⟩ := by
    refine ⟨?_, ?_, ?_⟩
    · intro i
      simp [hempty]
    · intro i f hf
      rw [hempty] at hf
      cases hf
    · intro i j f hi
      rw [hempty] at hi
      cases hi
  refine ⟨?_, ?_⟩
  · exact h.always_iff_guarded (fun _ hs => hs) (fun _ _ _ hs hkeeps st => hs.keeps hkeeps st)
      (fun _ _ _ hs hkeeps st => hs.breaks hkeeps st) hstart
  · exact h.stepwise fun _ _ _ hs hs' st => hs.openLaw hs' st

/-! ## Opening and closing `/a` on a fresh file system -/

def pathA : CStr := [slash, 97]

/-- `open("/a", O_CREAT)` on a fresh file system. -/
def createA : Kernel (Option (Fin nrMaxOpen) × FsState) := do
  let fs ← bootBlank
  sysOpen fs pathA 1 plainEnv

theorem createA_run : ∃ fs fs₁ fs₂, bootBlank = .ok fs ∧
    sysOpen fs pathA 1 plainEnv = .ok (some 0, fs₁) ∧ sysClose fs₁ 0 plainEnv = .ok fs₂ := by
  have hrun : (match createA with
      | .ok (some fd, fs₁) => decide (fd = 0) && (sysClose fs₁ 0 plainEnv).isOk
      | _ => false) = true := by decide +kernel
  split at hrun
  · rename_i fd fs₁ hcreate
    obtain ⟨hfd, hclose⟩ := Bool.and_eq_true_iff.mp hrun
    obtain rfl := of_decide_eq_true hfd
    simp only [createA, bind_eq_ok] at hcreate
    obtain ⟨fs, hboot, hopen⟩ := hcreate
    cases hput : sysClose fs₁ 0 plainEnv with
    | ok fs₂ => exact ⟨fs, fs₁, fs₂, hboot, hopen, hput⟩
    | error e =>
      rw [hput] at hclose
      cases hclose
  · cases hrun

theorem boot_empty {fs : FsState} (h : bootBlank = .ok fs) : fs.filp = fun _ => none :=
  (CacheReach.fsInit_ok h).2.2.2.2.2.2.2

theorem descriptor_table_law_create : ∃ fs fs₁, bootBlank = .ok fs ∧
    Always Law ⟨fs, ∅⟩ [(Event.opened pathA 1 plainEnv (some 0), ⟨fs₁, {0}⟩)] := by
  obtain ⟨fs, fs₁, fs₂, hboot, hopen, -⟩ := createA_run
  have hexec : Exec Step ⟨fs, ∅⟩ [(.opened pathA 1 plainEnv (some 0), ⟨fs₁, {0}⟩)] :=
    .cons (.opened hopen) (.nil _)
  have hreach : ReachesFile fs pathA 1 plainEnv :=
    ⟨⟨pathA, by simp [pathA, slash]⟩, rfl, by decide, .inl (by decide)⟩
  exact ⟨fs, fs₁, hboot,
    (descriptor_table_law_iff (boot_empty hboot) hexec).1.mpr ⟨.inr hreach, trivial⟩⟩

/-- A closed descriptor's slot is never free again. -/
theorem closed_slot_stays : ∃ fs fs₁ fs₂, bootBlank = .ok fs ∧
    Exec Step ⟨fs, ∅⟩ [(.opened pathA 1 plainEnv (some 0), ⟨fs₁, {0}⟩),
      (.closed 0 plainEnv, ⟨fs₂, ∅⟩)] ∧ ¬Law ⟨fs₂, ∅⟩ := by
  obtain ⟨fs, fs₁, fs₂, hboot, hopen, hclose⟩ := createA_run
  refine ⟨fs, fs₁, fs₂, hboot, .cons (.opened hopen) (.cons ?_ (.nil _)), fun hlaw => ?_⟩
  · exact Step.closed (Finset.mem_singleton_self 0) hclose
  · obtain ⟨f, d, s₁, hf, -, hput, hfree⟩ := sysClose_ok hclose
    obtain ⟨-, rfl⟩ := freeFile_ok hfree
    have hused : s₁.filp 0 ≠ none := by
      rw [(close_sameFiles hput).filp, hf]
      exact Option.some_ne_none f
    exact absurd ((hlaw.slots 0).mp hused) (Finset.notMem_empty 0)

end RxdOs.Fs.DescriptorTable
