/- RxdOs/Kernel/SharedFiles
   source: kernel/syscall_impl.c (do_fork), kernel/proc.c (copy_process), fs/fs.c (sys_open, sys_close)
   digest: File objects and the descriptor tables of all tasks: f_refcnt counts the slots exactly
   as long as no task forks while it has a file open. -/

import RxdOs.Fs.CacheReach
import RxdOs.Kernel.TaskWindow

set_option autoImplicit false
set_option relaxedAutoImplicit false

namespace RxdOs.Kernel.SharedFiles

open RxdOs.Base.Assert RxdOs.Lib.Execution RxdOs.Mm.Paging RxdOs.Fs.Bitmap RxdOs.Fs.Layout RxdOs.Fs.Name
  RxdOs.Fs.DentryCache RxdOs.Fs.Open RxdOs.Fs.CacheReach RxdOs.Kernel.Proc RxdOs.Kernel.Scheduler
  RxdOs.Kernel.Fork RxdOs.Kernel.TaskWindow

/-- The machine, the file system, and the descriptors each task holds: those it opened, or got
from its parent, and has not closed. -/
structure Session where
  machine : Machine
  fs : FsState
  opened : TaskPtr → Finset (Fin Proc.nrMaxOpen)

/-- The descriptor table of a task. -/
def filpOf (s : Session) (t : TaskPtr) : Fin Proc.nrMaxOpen → Option Nat :=
  (s.machine.sched.task t).filp

def currentOf (s : Session) : TaskPtr := s.machine.sched.current

/-- The file system as current_task sees it. -/
def loaded (s : Session) : FsState := { s.fs with filp := filpOf s (currentOf s) }

/-- The machine after a call of current_task has changed its descriptor table. -/
def stored (m : Machine) (filp : Fin Proc.nrMaxOpen → Option Nat) : Machine :=
  let task := { m.sched.task m.sched.current with filp := filp }
  { m with sched := m.sched.setTask m.sched.current task }

inductive Act
  | fork (esp fuel : Nat)
  | opened (pathname : CStr) (flags : UInt32) (env : Env) (r : Option (Fin Proc.nrMaxOpen))
  | closed (fd : Fin Proc.nrMaxOpen) (env : Env)
  | other (a : Event)

def IsFork : Event → Prop
  | .fork .. => True
  | _ => False

inductive Step : Session → Act → Session → Prop
  | full {s : Session} {esp fuel : Nat} {m : Machine} : getPid s.machine.sched = none →
      doFork s.machine esp fuel = .ok m → Step s (.fork esp fuel) { s with machine := m }
  | fork {s : Session} {esp fuel : Nat} {m : Machine} {pid : Fin nrTask} {child : TaskPtr} :
      getPid s.machine.sched = some pid → doFork s.machine esp fuel = .ok m →
      m.sched.table pid = some child → Step s (.fork esp fuel)
        ⟨m, s.fs, Function.update s.opened child (s.opened (currentOf s))⟩
  | opened {s : Session} {pathname : CStr} {flags : UInt32} {env : Env}
      {fd : Fin Proc.nrMaxOpen} {fs : FsState} :
      sysOpen (loaded s) pathname flags env = .ok (some fd, fs) →
      Step s (.opened pathname flags env (some fd)) ⟨stored s.machine fs.filp, fs,
        Function.update s.opened (currentOf s) (insert fd (s.opened (currentOf s)))⟩
  | failed {s : Session} {pathname : CStr} {flags : UInt32} {env : Env} {fs : FsState} :
      sysOpen (loaded s) pathname flags env = .ok (none, fs) →
      Step s (.opened pathname flags env none) ⟨stored s.machine fs.filp, fs, s.opened⟩
  | closed {s : Session} {fd : Fin Proc.nrMaxOpen} {env : Env} {fs : FsState} :
      fd ∈ s.opened (currentOf s) → sysClose (loaded s) fd env = .ok fs →
      Step s (.closed fd env) ⟨stored s.machine fs.filp, fs,
        Function.update s.opened (currentOf s) ((s.opened (currentOf s)).erase fd)⟩
  | other {s : Session} {a : Event} {m : Machine} : ¬IsFork a → TaskWindow.Step s.machine a m →
      Step s (.other a) { s with machine := m }

/-- The open descriptors of all tasks that refer to file object `f`. -/
def refs (s : Session) (f : Nat) : Finset (TaskPtr × Fin Proc.nrMaxOpen) :=
  (tasks s.machine.sched ×ˢ Finset.univ).filter fun x =>
    x.2 ∈ s.opened x.1 ∧ filpOf s x.1 x.2 = some f

/-- Every open descriptor has a live file object, and the live ones count their descriptors. -/
structure Shared (s : Session) : Prop where
  live : ∀ t ∈ tasks s.machine.sched, ∀ fd ∈ s.opened t, ∃ f ∈ s.fs.files, filpOf s t fd = some f
  count : ∀ f ∈ s.fs.files, 0 < (refs s f).card ∧ (s.fs.file f).fRefcnt = (refs s f).card

/-- The dentry of `f` is put between `s` and `s'`. -/
def PutDentry (s : Session) (f : Nat) (env : Env) (s' : Session) : Prop :=
  ∃ d fs, (s.fs.file f).fDentry = some d ∧ close (loaded s) d env = .ok fs ∧
    s'.fs.dentry = fs.dentry ∧ s'.fs.dentryList = fs.dentryList ∧ s'.fs.vol = fs.vol

/-- A close returns the file object and puts its dentry when no other descriptor refers to it, and
leaves both alone otherwise. -/
def FreesLast (s : Session) (a : Act) (s' : Session) : Prop :=
  match a with
  | .closed fd env => ∀ f, filpOf s (currentOf s) fd = some f →
      (refs s f ⊆ {(currentOf s, fd)} → f ∉ s'.fs.files ∧ PutDentry s f env s') ∧
        (¬refs s f ⊆ {(currentOf s, fd)} → f ∈ s'.fs.files ∧ s'.fs.dentry = s.fs.dentry)
  | _ => True

/-- No child is made by a task that has a file open. -/
def ForksBare (s : Session) : Act → Prop
  | .fork .. => getPid s.machine.sched = none ∨ s.opened (currentOf s) = ∅
  | _ => True

variable {s s' : Session} {t : TaskPtr} {f : Nat}

theorem mem_refs {x : TaskPtr × Fin Proc.nrMaxOpen} : x ∈ refs s f ↔
    x.1 ∈ tasks s.machine.sched ∧ x.2 ∈ s.opened x.1 ∧ filpOf s x.1 x.2 = some f := by
  simp [refs]

/-! ## What the calls do to files and descriptor tables -/

section Calls

variable {fs fs' : FsState} {pathname : CStr} {flags : UInt32} {env : Env}

/-- A failed sys_open may leave its object in an empty slot, but no live object changes. -/
theorem sysOpen_failed (h : sysOpen fs pathname flags env = .ok (none, fs')) :
    fs'.files = fs.files ∧ (∀ g ∈ fs.files, fs'.file g = fs.file g) ∧
      ∀ fd, fs.filp fd ≠ none → fs'.filp fd = fs.filp fd := by
  obtain ⟨path, -, ⟨-, -, rfl⟩ | ⟨slot, f, s₁, hslot, halloc, hcases⟩⟩ := sysOpen_ok h
  · exact ⟨rfl, fun _ _ => rfl, fun _ _ => rfl⟩
  obtain ⟨-, hfresh, rfl⟩ := allocFile_ok halloc
  have hfreed : ∀ {s₂ : FsState}, SameFiles (FsState.setFile { fs with
      files := f :: fs.files, filp := Function.update fs.filp slot (some f) } f
        { fs.file f with fFlags := flags, fMode := 0, fPos := 0 }) s₂ → freeFile s₂ f = .ok fs' →
      fs'.files = fs.files ∧ (∀ g ∈ fs.files, fs'.file g = fs.file g) ∧
        ∀ fd, fs.filp fd ≠ none → fs'.filp fd = fs.filp fd := by
    intro s₂ hsame hfree
    obtain ⟨-, rfl⟩ := freeFile_ok hfree
    refine ⟨?_, fun g hg => ?_, fun fd hfd => ?_⟩
    · show s₂.files.erase f = fs.files
      rw [hsame.files]
      exact List.erase_cons_head ..
    · show s₂.file g = fs.file g
      rw [hsame.file]
      exact Function.update_of_ne (fun (heq : g = f) => hfresh (heq ▸ hg)) ..
    · show s₂.filp fd = fs.filp fd
      rw [hsame.filp]
      refine Function.update_of_ne (fun (heq : fd = slot) => hfd ?_) ..
      rw [heq]
      exact (freeSlot_some hslot).1
  obtain ⟨s₂, hdir, hfree, -⟩ | ⟨s₂, s₃, dentry, hdir, -, hlast, hend⟩ := hcases
  · exact hfreed (opendir_sameFiles hdir) hfree
  · obtain ⟨-, hfree, -⟩ | ⟨d, -, hr, -⟩ := hend
    · exact hfreed ((opendir_sameFiles hdir).trans (openLast_sameFiles hlast)) hfree
    · cases hr

/-- A successful one puts a fresh object with count 1 into an empty slot. -/
theorem sysOpen_opened {fd : Fin Proc.nrMaxOpen}
    (h : sysOpen fs pathname flags env = .ok (some fd, fs')) : fs.filp fd = none ∧
      ∃ f, f ∉ fs.files ∧ fs'.files = f :: fs.files ∧
        fs'.filp = Function.update fs.filp fd (some f) ∧ (fs'.file f).fRefcnt = 1 ∧
        ∀ g ∈ fs.files, fs'.file g = fs.file g := by
  obtain ⟨path, -, ⟨-, hr, -⟩ | ⟨slot, f, s₁, hslot, halloc, hcases⟩⟩ := sysOpen_ok h
  · cases hr
  obtain ⟨-, hfresh, rfl⟩ := allocFile_ok halloc
  obtain ⟨s₂, -, -, hr⟩ | ⟨s₂, s₃, dentry, hdir, -, hlast, hend⟩ := hcases
  · cases hr
  obtain ⟨-, -, hr⟩ | ⟨d, -, hr, rfl⟩ := hend
  · cases hr
  obtain rfl : fd = slot := Option.some.inj hr
  have hsame := (opendir_sameFiles hdir).trans (openLast_sameFiles hlast)
  refine ⟨(freeSlot_some hslot).1, f, hfresh, hsame.files, hsame.filp, ?_, fun g hg => ?_⟩
  · show (Function.update s₃.file f _ f).fRefcnt = 1
    rw [Function.update_self]
  · have hne : g ≠ f := fun heq => hfresh (heq ▸ hg)
    show Function.update s₃.file f _ g = fs.file g
    rw [Function.update_of_ne hne, hsame.file]
    exact Function.update_of_ne hne ..

theorem sysClose_freed {fd : Fin Proc.nrMaxOpen} (h : sysClose fs fd env = .ok fs') :
    ∃ f ∈ fs.files, fs.filp fd = some f ∧ fs'.files = fs.files.erase f ∧ fs'.filp = fs.filp ∧
      fs'.file = fs.file := by
  obtain ⟨f, d, s₁, hf, -, hclose, hfree⟩ := sysClose_ok h
  obtain ⟨hmem, rfl⟩ := freeFile_ok hfree
  have hsame := close_sameFiles hclose
  exact ⟨f, hsame.files ▸ hmem, hf, by rw [hsame.files], hsame.filp, hsame.file⟩

end Calls

theorem filp_stored (m : Machine) (filp : Fin Proc.nrMaxOpen → Option Nat) :
    ((stored m filp).sched.task m.sched.current).filp = filp ∧
      ∀ t, t ≠ m.sched.current → ((stored m filp).sched.task t).filp = (m.sched.task t).filp := by
  refine ⟨?_, fun t ht => ?_⟩
  · rw [stored, Sched.setTask_self]
  · rw [stored, Sched.setTask_of_ne _ _ ht]

theorem windows_stored {m : Machine} (h : Windows m) (filp : Fin Proc.nrMaxOpen → Option Nat) :
    Windows (stored m filp) := by
  refine ⟨h.placed.keep (fun x => ?_) rfl rfl rfl h.placed.current_mem,
    ⟨h.mapped.live, h.mapped.frame⟩, h.housed⟩
  by_cases hx : x = m.sched.current
  · rw [hx, stored, Sched.setTask_self]
    exact ⟨rfl, rfl⟩
  · rw [stored, Sched.setTask_of_ne _ _ hx]
    exact ⟨rfl, rfl⟩

/-- The child of a fork starts with the descriptor table of its parent. -/
theorem filp_fork {m m' : Machine} (h : Windows m) {esp fuel : Nat} {pid : Fin nrTask}
    {child : TaskPtr} (hpid : getPid m.sched = some pid) (hfork : doFork m esp fuel = .ok m')
    (hchild : m'.sched.table pid = some child) :
    child ∉ tasks m.sched ∧ (∀ t, t ∈ tasks m'.sched ↔ t = child ∨ t ∈ tasks m.sched) ∧
      (m'.sched.task child).filp = (m.sched.task m.sched.current).filp ∧
      ∀ t, t ≠ child → (m'.sched.task t).filp = (m.sched.task t).filp := by
  rcases doFork_child h hfork with ⟨hnone, -⟩ | ⟨pid', page, mem, s₁, hpid', -, hfresh, hf, hsched, -⟩
  · rw [hpid] at hnone
    cases hnone
  obtain rfl : pid = pid' := Option.some.inj (hpid.symm.trans hpid')
  have htable : m'.sched.table = Function.update m.sched.table pid (some (.page page)) := by
    rw [hsched.table, hf.table]
  obtain rfl : .page page = child := by
    rw [htable, Function.update_self] at hchild
    exact Option.some.inj hchild
  refine ⟨fun hmem => ?_, fun t => ⟨fun ht => ?_, fun ht => ?_⟩, ?_, fun t ht => ?_⟩
  · obtain ⟨p, hp⟩ := mem_tasks.mp hmem
    exact hfresh p hp
  · obtain ⟨p, hp⟩ := mem_tasks.mp ht
    rw [hsched.table] at hp
    obtain ⟨-, rfl⟩ | ⟨-, hp⟩ := table_forked hf hp
    · exact .inl rfl
    · exact .inr (mem_tasks.mpr ⟨p, hp⟩)
  · rw [mem_tasks]
    rcases ht with rfl | ht
    · exact ⟨pid, hchild⟩
    · obtain ⟨p, hp⟩ := mem_tasks.mp ht
      have hpp : p ≠ pid := fun heq => by
        rw [heq, hf.free] at hp
        cases hp
      exact ⟨p, by rw [htable, Function.update_of_ne hpp, hp]⟩
  · rw [(hsched.task _).filp, hf.made]
    rfl
  · rw [(hsched.task t).filp]
    by_cases hc : t = m.sched.current
    · rw [hc, hf.parent]
      rfl
    · rw [hf.other t ht hc]

/-- Neither a fork without a free pid nor any other event touches a descriptor table. -/
theorem filp_other {m m' : Machine} {a : Event} (hnot : ¬IsFork a) (st : TaskWindow.Step m a m') :
    tasks m'.sched = tasks m.sched ∧ ∀ t, (m'.sched.task t).filp = (m.sched.task t).filp := by
  cases st with
  | fork _ => exact absurd trivial hnot
  | fault _ _ => exact ⟨rfl, fun _ => rfl⟩
  | clock hsched =>
    have hs := schedule_ok hsched
    exact ⟨tasks_congr hs.table, fun t => (hs.task t).filp⟩
  | dispatch _ =>
    refine ⟨tasks_congr rfl, fun x => ?_⟩
    by_cases hx : x = m.sched.current
    · rw [hx, switchTo_self]
    · rw [switchTo_of_ne _ _ _ hx]

theorem filp_full {m m' : Machine} (h : Windows m) {esp fuel : Nat} (hnone : getPid m.sched = none)
    (hfork : doFork m esp fuel = .ok m') :
    tasks m'.sched = tasks m.sched ∧ ∀ t, (m'.sched.task t).filp = (m.sched.task t).filp := by
  rcases doFork_child h hfork with ⟨-, rfl⟩ | ⟨pid, page, mem, s₁, hpid, -⟩
  · refine ⟨tasks_congr rfl, fun x => ?_⟩
    show ((setTaskRetval m.sched m.sched.current (-1)).task x).filp = _
    by_cases hx : x = m.sched.current
    · rw [hx, setTaskRetval, Sched.setTask_self]
      rfl
    · rw [setTaskRetval, Sched.setTask_of_ne _ _ hx]
  · rw [hnone] at hpid
    cases hpid

/-! ## One object for each descriptor -/

/-- An open descriptor of a task of the table. -/
def Held (s : Session) (x : TaskPtr × Fin Proc.nrMaxOpen) : Prop :=
  x.1 ∈ tasks s.machine.sched ∧ x.2 ∈ s.opened x.1

/-- While nobody has forked with a file open, every open descriptor has an object of its own with
count 1, and every live object has its descriptor. -/
structure Single (s : Session) : Prop where
  windows : Windows s.machine
  nodup : s.fs.files.Nodup
  live : ∀ x, Held s x → ∃ f ∈ s.fs.files,
    filpOf s x.1 x.2 = some f ∧ (s.fs.file f).fRefcnt = 1
  alone : ∀ x y, Held s x → Held s y → filpOf s x.1 x.2 = filpOf s y.1 y.2 → x = y
  used : ∀ f ∈ s.fs.files, ∃ x, Held s x ∧ filpOf s x.1 x.2 = some f

theorem mem_refs_held {x : TaskPtr × Fin Proc.nrMaxOpen} :
    x ∈ refs s f ↔ Held s x ∧ filpOf s x.1 x.2 = some f := by
  rw [mem_refs, Held, and_assoc]

theorem Single.shared (h : Single s) : Shared s := by
  refine ⟨fun t ht fd hfd => ?_, fun f hf => ?_⟩
  · obtain ⟨f, hf, hslot, -⟩ := h.live (t, fd) ⟨ht, hfd⟩
    exact ⟨f, hf, hslot⟩
  · obtain ⟨x, hx, hslot⟩ := h.used f hf
    have hone : refs s f = {x} := by
      ext y
      rw [mem_refs_held, Finset.mem_singleton]
      constructor
      · intro ⟨hy, hyslot⟩
        exact h.alone y x hy hx (hyslot.trans hslot.symm)
      · rintro rfl
        exact ⟨hx, hslot⟩
    obtain ⟨g, -, hslot', hcount⟩ := h.live x hx
    obtain rfl : f = g := Option.some.inj (hslot.symm.trans hslot')
    rw [hone, Finset.card_singleton, hcount]
    exact ⟨one_pos, rfl⟩

/-- Steps after which tasks hold the same objects in the same open descriptors. -/
theorem Single.congr (h : Single s) (hwin : Windows s'.machine)
    (hheld : ∀ x, Held s' x ↔ Held s x)
    (hfilp : ∀ x, Held s x → filpOf s' x.1 x.2 = filpOf s x.1 x.2)
    (hfiles : s'.fs.files = s.fs.files)
    (hfile : ∀ f ∈ s.fs.files, s'.fs.file f = s.fs.file f) : Single s' := by
  refine ⟨hwin, hfiles ▸ h.nodup, fun x hx => ?_, fun x y hx hy heq => ?_, fun f hf => ?_⟩
  · rw [hheld] at hx
    obtain ⟨f, hf, hslot, hcount⟩ := h.live x hx
    refine ⟨f, hfiles ▸ hf, ?_, ?_⟩
    · rw [hfilp x hx, hslot]
    · rw [hfile f hf, hcount]
  · rw [hheld] at hx hy
    rw [hfilp x hx, hfilp y hy] at heq
    exact h.alone x y hx hy heq
  · rw [hfiles] at hf
    obtain ⟨x, hx, hslot⟩ := h.used f hf
    exact ⟨x, (hheld x).mpr hx, (hfilp x hx).trans hslot⟩

theorem current_mem (h : Windows s.machine) : currentOf s ∈ tasks s.machine.sched :=
  h.placed.current_mem

theorem filp_current (m : Machine) (fs : FsState) (opened : TaskPtr → Finset (Fin Proc.nrMaxOpen))
    (fd : Fin Proc.nrMaxOpen) :
    filpOf ⟨stored m fs.filp, fs, opened⟩ m.sched.current fd = fs.filp fd := by
  rw [filpOf, (filp_stored m fs.filp).1]

theorem filp_of_ne {m : Machine} {fs : FsState} {opened : TaskPtr → Finset (Fin Proc.nrMaxOpen)}
    (ht : t ≠ m.sched.current) (fd : Fin Proc.nrMaxOpen) :
    filpOf ⟨stored m fs.filp, fs, opened⟩ t fd = (m.sched.task t).filp fd := by
  rw [filpOf, (filp_stored m fs.filp).2 t ht]

theorem tasks_stored (m : Machine) (filp : Fin Proc.nrMaxOpen → Option Nat) :
    tasks (stored m filp).sched = tasks m.sched :=
  tasks_congr rfl

/-- A call of current_task that keeps its open descriptors in their places keeps every task's. -/
theorem filp_kept {fs : FsState} {opened : TaskPtr → Finset (Fin Proc.nrMaxOpen)}
    {x : TaskPtr × Fin Proc.nrMaxOpen}
    (hkeep : x.1 = currentOf s → fs.filp x.2 = filpOf s x.1 x.2) :
    filpOf ⟨stored s.machine fs.filp, fs, opened⟩ x.1 x.2 = filpOf s x.1 x.2 := by
  by_cases hx : x.1 = s.machine.sched.current
  · rw [hx, filp_current]
    exact (hkeep hx).trans (congrArg (filpOf s · x.2) hx)
  · exact filp_of_ne hx x.2

section Opened

variable {pathname : CStr} {flags : UInt32} {env : Env} {fd : Fin Proc.nrMaxOpen} {fs : FsState}

/-- The session after sys_open returned `fd`. -/
def afterOpen (s : Session) (fs : FsState) (fd : Fin Proc.nrMaxOpen) : Session :=
  ⟨stored s.machine fs.filp, fs,
    Function.update s.opened (currentOf s) (insert fd (s.opened (currentOf s)))⟩

/-- The open descriptors are the old ones and the new one. -/
theorem held_afterOpen (h : Windows s.machine) {x : TaskPtr × Fin Proc.nrMaxOpen} :
    Held (afterOpen s fs fd) x ↔ x = (currentOf s, fd) ∨ Held s x := by
  obtain ⟨t, fd'⟩ := x
  simp only [Held, afterOpen, tasks_stored, Prod.mk.injEq]
  by_cases ht : t = currentOf s
  · subst ht
    rw [Function.update_self, Finset.mem_insert]
    have hmem := current_mem h
    tauto
  · rw [Function.update_of_ne ht]
    tauto

theorem Single.opened (h : Single s) (hopen : sysOpen (loaded s) pathname flags env =
    .ok (some fd, fs)) : Single (afterOpen s fs fd) := by
  obtain ⟨hnone, f, hfresh, hfiles, hfilp, hcount, hfile⟩ := sysOpen_opened hopen
  change filpOf s (currentOf s) fd = none at hnone
  change fs.files = f :: s.fs.files at hfiles
  change fs.filp = Function.update (filpOf s (currentOf s)) fd (some f) at hfilp
  have hnew : filpOf (afterOpen s fs fd) (currentOf s) fd = some f := by
    rw [afterOpen, currentOf, filp_current, hfilp, Function.update_self]
  have hne : ∀ x, Held s x → x ≠ (currentOf s, fd) := by
    rintro x hx rfl
    obtain ⟨g, -, hslot, -⟩ := h.live _ hx
    rw [hnone] at hslot
    cases hslot
  have hold : ∀ x, Held s x → filpOf (afterOpen s fs fd) x.1 x.2 = filpOf s x.1 x.2 := by
    intro x hx
    refine filp_kept fun hcur => ?_
    have hfd : x.2 ≠ fd := fun heq => hne x hx (Prod.ext hcur heq)
    rw [hfilp, Function.update_of_ne hfd, hcur]
  have hlisted : ∀ x, Held s x → filpOf s x.1 x.2 ≠ some f := by
    intro x hx heq
    obtain ⟨g, hg, hslot, -⟩ := h.live x hx
    obtain rfl : f = g := Option.some.inj (heq.symm.trans hslot)
    exact hfresh hg
  refine ⟨windows_stored h.windows fs.filp, ?_, fun x hx => ?_, fun x y hx hy heq => ?_,
    fun g hg => ?_⟩
  · show fs.files.Nodup
    rw [hfiles, List.nodup_cons]
    exact ⟨hfresh, h.nodup⟩
  · show ∃ g ∈ fs.files, _ ∧ (fs.file g).fRefcnt = 1
    rw [hfiles]
    rcases (held_afterOpen h.windows).mp hx with rfl | hx
    · exact ⟨f, List.mem_cons_self .., hnew, hcount⟩
    · obtain ⟨g, hg, hslot, hone⟩ := h.live x hx
      refine ⟨g, List.mem_cons_of_mem _ hg, (hold x hx).trans hslot, ?_⟩
      rw [hfile g hg]
      exact hone
  · rcases (held_afterOpen h.windows).mp hx with rfl | hx <;>
      rcases (held_afterOpen h.windows).mp hy with rfl | hy
    · rfl
    · rw [hnew, hold y hy] at heq
      exact absurd heq.symm (hlisted y hy)
    · rw [hnew, hold x hx] at heq
      exact absurd heq (hlisted x hx)
    · rw [hold x hx, hold y hy] at heq
      exact h.alone x y hx hy heq
  · change g ∈ fs.files at hg
    rw [hfiles, List.mem_cons] at hg
    rcases hg with rfl | hg
    · exact ⟨_, (held_afterOpen h.windows).mpr (.inl rfl), hnew⟩
    · obtain ⟨x, hx, hslot⟩ := h.used g hg
      exact ⟨x, (held_afterOpen h.windows).mpr (.inr hx), (hold x hx).trans hslot⟩

theorem Single.failed (h : Single s) (hopen : sysOpen (loaded s) pathname flags env =
    .ok (none, fs)) : Single ⟨stored s.machine fs.filp, fs, s.opened⟩ := by
  obtain ⟨hfiles, hfile, hfilp⟩ := sysOpen_failed hopen
  refine h.congr (windows_stored h.windows fs.filp) (fun x => ?_) (fun x hx => ?_) hfiles hfile
  · rw [Held, Held]
    exact and_congr_left' (by rw [tasks_stored])
  · refine filp_kept fun hcur => ?_
    obtain ⟨f, -, hslot, -⟩ := h.live x hx
    rw [hcur] at hslot ⊢
    refine hfilp x.2 fun hnone => ?_
    change filpOf s (currentOf s) x.2 = none at hnone
    rw [hnone] at hslot
    cases hslot

end Opened

section Closed

variable {fd : Fin Proc.nrMaxOpen} {env : Env} {fs : FsState}

/-- The session after sys_close. -/
def afterClose (s : Session) (fs : FsState) (fd : Fin Proc.nrMaxOpen) : Session :=
  ⟨stored s.machine fs.filp, fs,
    Function.update s.opened (currentOf s) ((s.opened (currentOf s)).erase fd)⟩

theorem held_afterClose {x : TaskPtr × Fin Proc.nrMaxOpen} :
    Held (afterClose s fs fd) x ↔ x ≠ (currentOf s, fd) ∧ Held s x := by
  obtain ⟨t, fd'⟩ := x
  simp only [Held, afterClose, tasks_stored, ne_eq, Prod.mk.injEq]
  by_cases ht : t = currentOf s
  · subst ht
    rw [Function.update_self, Finset.mem_erase]
    tauto
  · rw [Function.update_of_ne ht]
    tauto

theorem Single.closed (h : Single s) (hfd : fd ∈ s.opened (currentOf s))
    (hclose : sysClose (loaded s) fd env = .ok fs) : Single (afterClose s fs fd) := by
  obtain ⟨f, hf, hslot, hfiles, hfilp, hfile⟩ := sysClose_freed hclose
  change filpOf s (currentOf s) fd = some f at hslot
  change fs.files = s.fs.files.erase f at hfiles
  have hhere : Held s (currentOf s, fd) := ⟨current_mem h.windows, hfd⟩
  have hold : ∀ x : TaskPtr × Fin Proc.nrMaxOpen,
      filpOf (afterClose s fs fd) x.1 x.2 = filpOf s x.1 x.2 := by
    intro x
    refine filp_kept fun hcur => ?_
    rw [hfilp, hcur]
    rfl
  refine ⟨windows_stored h.windows fs.filp, ?_, fun x hx => ?_, fun x y hx hy heq => ?_,
    fun g hg => ?_⟩
  · show fs.files.Nodup
    rw [hfiles]
    exact h.nodup.erase f
  · obtain ⟨hne, hx⟩ := held_afterClose.mp hx
    obtain ⟨g, hg, hslot', hone⟩ := h.live x hx
    refine ⟨g, ?_, (hold x).trans hslot', ?_⟩
    · show g ∈ fs.files
      rw [hfiles, h.nodup.mem_erase_iff]
      refine ⟨?_, hg⟩
      rintro rfl
      exact hne (h.alone x _ hx hhere (hslot'.trans hslot.symm))
    · show (fs.file g).fRefcnt = 1
      rw [hfile]
      exact hone
  · rw [hold x, hold y] at heq
    exact h.alone x y (held_afterClose.mp hx).2 (held_afterClose.mp hy).2 heq
  · change g ∈ fs.files at hg
    rw [hfiles, h.nodup.mem_erase_iff] at hg
    obtain ⟨hne, hg⟩ := hg
    obtain ⟨x, hx, hslot'⟩ := h.used g hg
    refine ⟨x, held_afterClose.mpr ⟨?_, hx⟩, (hold x).trans hslot'⟩
    rintro rfl
    exact hne (Option.some.inj (hslot'.symm.trans hslot))

end Closed

/-- A child of a task with nothing open holds no descriptor. -/
theorem Single.fork (h : Single s) {m : Machine} {esp fuel : Nat} {pid : Fin nrTask}
    {child : TaskPtr} (hbare : s.opened (currentOf s) = ∅) (hpid : getPid s.machine.sched = some pid)
    (hfork : doFork s.machine esp fuel = .ok m) (hchild : m.sched.table pid = some child) :
    Single ⟨m, s.fs, Function.update s.opened child (s.opened (currentOf s))⟩ := by
  obtain ⟨hfresh, htasks, -, hfilp⟩ := filp_fork h.windows hpid hfork hchild
  have hheld : ∀ x : TaskPtr × Fin Proc.nrMaxOpen,
      Held ⟨m, s.fs, Function.update s.opened child (s.opened (currentOf s))⟩ x ↔ Held s x := by
    intro x
    simp only [Held, htasks]
    by_cases hx : x.1 = child
    · rw [hx, Function.update_self, hbare]
      simp [hfresh]
    · rw [Function.update_of_ne hx]
      tauto
  refine h.congr (h.windows.step (.fork hfork)).1 hheld (fun x hx => ?_) rfl fun _ _ => rfl
  have hne : x.1 ≠ child := fun heq => hfresh (heq ▸ hx.1)
  exact congrFun (hfilp x.1 hne) x.2

theorem Single.step {a : Act} (h : Single s) (hbare : ForksBare s a) (st : Step s a s') :
    Single s' := by
  cases st with
  | full hnone hfork =>
    obtain ⟨htasks, hfilp⟩ := filp_full h.windows hnone hfork
    refine h.congr (h.windows.step (.fork hfork)).1 (fun x => ?_) (fun x _ => ?_) rfl fun _ _ => rfl
    · rw [Held, Held, htasks]
    · exact congrFun (hfilp x.1) x.2
  | fork hpid hfork hchild =>
    rcases hbare with hnone | hbare
    · rw [hpid] at hnone
      cases hnone
    · exact h.fork hbare hpid hfork hchild
  | opened hopen => exact h.opened hopen
  | failed hopen => exact h.failed hopen
  | closed hfd hclose => exact h.closed hfd hclose
  | other hnot st =>
    obtain ⟨htasks, hfilp⟩ := filp_other hnot st
    refine h.congr (h.windows.step st).1 (fun x => ?_) (fun x _ => ?_) rfl fun _ _ => rfl
    · rw [Held, Held, htasks]
    · exact congrFun (hfilp x.1) x.2

/-- A child made with a file open shares its object, but nobody counts the child. -/
theorem Single.break {a : Act} (h : Single s) (hnot : ¬ForksBare s a) (st : Step s a s') :
    ¬Shared s' := by
  cases st with
  | full hnone hfork => exact absurd (.inl hnone) hnot
  | @fork esp fuel m pid child hpid hfork hchild =>
    obtain ⟨hfresh, htasks, hcopy, hfilp⟩ := filp_fork h.windows hpid hfork hchild
    obtain ⟨fd, hfd⟩ := Finset.nonempty_iff_ne_empty.mpr fun hempty => hnot (.inr hempty)
    obtain ⟨f, hf, hslot, hone⟩ := h.live (currentOf s, fd) ⟨current_mem h.windows, hfd⟩
    have hne : currentOf s ≠ child := fun heq => hfresh (heq ▸ current_mem h.windows)
    intro hshared
    have htwo : 1 < (refs ⟨m, s.fs, Function.update s.opened child (s.opened (currentOf s))⟩ f).card := by
      rw [Finset.one_lt_card]
      refine ⟨(currentOf s, fd), mem_refs.mpr ⟨?_, ?_, ?_⟩, (child, fd), mem_refs.mpr ⟨?_, ?_, ?_⟩,
        fun heq => hne (congrArg Prod.fst heq)⟩
      · exact (htasks _).mpr (.inr (current_mem h.windows))
      · show fd ∈ Function.update s.opened child _ (currentOf s)
        rw [Function.update_of_ne hne]
        exact hfd
      · exact (congrFun (hfilp _ hne) fd).trans hslot
      · exact (htasks _).mpr (.inl rfl)
      · show fd ∈ Function.update s.opened child _ child
        rw [Function.update_self]
        exact hfd
      · exact (congrFun hcopy fd).trans hslot
    have hcount := (hshared.count f hf).2
    change (s.fs.file f).fRefcnt = _ at hcount
    rw [hone] at hcount
    omega
  | opened _ => exact absurd trivial hnot
  | failed _ => exact absurd trivial hnot
  | closed _ _ => exact absurd trivial hnot
  | other _ _ => exact absurd trivial hnot

theorem Single.freesLast {a : Act} (h : Single s) (st : Step s a s') : FreesLast s a s' := by
  cases st with
  | full _ _ => trivial
  | fork _ _ _ => trivial
  | opened _ => trivial
  | failed _ => trivial
  | other _ _ => trivial
  | @closed fd env fs hfd hclose =>
    intro f hslot
    have hhere : Held s (currentOf s, fd) := ⟨current_mem h.windows, hfd⟩
    have hlast : refs s f ⊆ {(currentOf s, fd)} := by
      intro x hx
      obtain ⟨hx, hxslot⟩ := mem_refs_held.mp hx
      rw [Finset.mem_singleton]
      exact h.alone x _ hx hhere (hxslot.trans hslot.symm)
    refine ⟨fun _ => ⟨?_, ?_⟩, fun hnot => absurd hlast hnot⟩
    · obtain ⟨g, -, hslot', hfiles, -⟩ := sysClose_freed hclose
      obtain rfl : f = g := Option.some.inj (hslot.symm.trans hslot')
      show f ∉ fs.files
      rw [hfiles]
      exact h.nodup.not_mem_erase
    · obtain ⟨g, d, fs₁, hslot', hd, hput, hfree⟩ := sysClose_ok hclose
      obtain rfl : f = g := Option.some.inj (hslot.symm.trans hslot')
      obtain ⟨-, rfl⟩ := freeFile_ok hfree
      exact ⟨d, fs₁, hd, hput, rfl, rfl, rfl⟩

/-- After boot no task has a file open. -/
theorem Single.boot {m : Machine} (hboot : Booted m) {memory fs : FsState} {disk : Disk}
    {ptrs : Pointers} (hinit : fsInit memory disk ptrs = .ok fs) :
    Single ⟨m, fs, fun _ => ∅⟩ := by
  have hfiles : fs.files = [] := (fsInit_ok hinit).2.2.2.2.2.2.1
  refine ⟨hboot.windows, ?_, fun x hx => ?_, fun x y hx => ?_, fun f hf => ?_⟩
  · show fs.files.Nodup
    rw [hfiles]
    exact List.nodup_nil
  · exact absurd hx.2 (Finset.notMem_empty _)
  · exact absurd hx.2 (Finset.notMem_empty _)
  · change f ∈ fs.files at hf
    rw [hfiles] at hf
    exact absurd hf List.not_mem_nil

/-- Over any run of forks, opens and closes by any tasks, f_refcnt counts the open descriptors
and the last close frees the object exactly when no task with a file open has made a child. -/
theorem files_survive_fork_iff {m : Machine} (hboot : Booted m) {memory fs : FsState} {disk : Disk}
    {ptrs : Pointers} (hinit : fsInit memory disk ptrs = .ok fs) {tr : List (Act × Session)}
    (hrun : Exec Step ⟨m, fs, fun _ => ∅⟩ tr) :
    Always Shared ⟨m, fs, fun _ => ∅⟩ tr ∧ Stepwise FreesLast ⟨m, fs, fun _ => ∅⟩ tr ↔
      Guarded ForksBare ⟨m, fs, fun _ => ∅⟩ tr := by
  have hstart : Single ⟨m, fs, fun _ => ∅⟩ := .boot hboot hinit
  have hiff := hrun.always_iff_guarded (fun _ h => h.shared) (fun _ _ _ h hC st => h.step hC st)
    (fun _ _ _ h hn st => h.break hn st) hstart
  refine ⟨fun h => hiff.mp h.1, fun hg => ⟨hiff.mpr hg, ?_⟩⟩
  have hsingle := hrun.always_of_guarded (fun _ _ _ h hC st => Single.step h hC st) hstart hg
  exact hrun.stepwise (fun _ _ _ h _ st => h.freesLast st) hsingle

/-! ## A child that closes its parent's file -/

/-- What the three calls leave: init opens `/a` and forks, and its child closes the descriptor. -/
structure ChildCloses where
  boot : Machine
  fs : FsState
  openFs : FsState
  forked : Machine
  child : TaskPtr
  closeFs : FsState

def bare (m : Machine) (fs : FsState) : Session := ⟨m, fs, fun _ => ∅⟩

def childCloses : Kernel ChildCloses := do
  let boot ← bootMachine
  let fs ← bootBlank
  let (fd, openFs) ← sysOpen (loaded (bare boot fs)) (rootPath [97]) 1 plainEnv
  access (fd = some 0) "fd"
  access (getPid (stored boot openFs.filp).sched = some 1) "pid"
  let forked ← doFork (stored boot openFs.filp) 0 2
  let child ← deref (forked.sched.table 1) "child"
  let closeFs ← sysClose (loaded (bare forked openFs)) 0 plainEnv
  pure ⟨boot, fs, openFs, forked, child, closeFs⟩

/-- do_fork has called schedule, so the child closes the file first; no object is left. -/
def ParentLoses (r : ChildCloses) : Prop :=
  r.boot.sched.current = .init ∧ r.forked.sched.current = r.child ∧ r.child ≠ .init ∧
    (∃ p, r.forked.sched.table p = some .init) ∧ r.closeFs.files = []

instance (r : ChildCloses) : Decidable (ParentLoses r) :=
  inferInstanceAs (Decidable (_ ∧ _ ∧ _ ∧ _ ∧ _))

theorem childCloses_run : ∃ r, childCloses = .ok r ∧ ParentLoses r := by
  have hrun : (match childCloses with
      | .ok r => decide (ParentLoses r)
      | .error _ => false) = true := by decide +kernel
  split at hrun
  swap
  · cases hrun
  rename_i r hr
  exact ⟨r, hr, of_decide_eq_true hrun⟩

/-- The sessions after open, fork and close. -/
def ChildCloses.opened (r : ChildCloses) : Session := afterOpen (bare r.boot r.fs) r.openFs 0

def ChildCloses.shared (r : ChildCloses) : Session :=
  ⟨r.forked, r.openFs, Function.update r.opened.opened r.child (r.opened.opened (currentOf r.opened))⟩

def ChildCloses.run (r : ChildCloses) : List (Act × Session) :=
  [(.opened (rootPath [97]) 1 plainEnv (some 0), r.opened), (.fork 0 2, r.shared),
    (.closed 0 plainEnv, afterClose r.shared r.closeFs 0)]

/-- Both tasks hold descriptor 0 after the fork. -/
theorem ParentLoses.held {r : ChildCloses} (h : ParentLoses r) :
    r.shared.opened r.child = {0} ∧ r.shared.opened .init = {0} := by
  obtain ⟨hcurrent, -, hne, -⟩ := h
  have hopened : r.opened.opened .init = {0} := by
    simp [ChildCloses.opened, afterOpen, bare, currentOf, hcurrent]
  have hcur : currentOf r.opened = .init := hcurrent
  constructor
  · show Function.update r.opened.opened r.child (r.opened.opened (currentOf r.opened)) r.child = {0}
    rw [Function.update_self, hcur, hopened]
  · show Function.update r.opened.opened r.child _ .init = {0}
    rw [Function.update_of_ne hne.symm, hopened]

theorem childCloses_exec {r : ChildCloses} (h : childCloses = .ok r) (hlost : ParentLoses r) :
    Booted r.boot ∧ bootBlank = .ok r.fs ∧ Exec Step (bare r.boot r.fs) r.run := by
  simp only [childCloses, bind_eq_ok, access_eq_ok, deref_eq_ok, pure_eq_ok, Except.ok.injEq] at h
  obtain ⟨m, hboot, fs, hinit, ⟨fd, openFs⟩, hopen, _, rfl, _, hpid, forked, hfork, child, hchild,
    closeFs, hclose, rfl⟩ := h
  refine ⟨bootMachine_booted hboot, hinit, .cons (.opened hopen) (.cons (.fork hpid hfork hchild)
    (.cons (.closed ?_ hclose) (.nil _)))⟩
  generalize hr : (⟨m, fs, openFs, forked, child, closeFs⟩ : ChildCloses) = r at hlost
  have hcurrent : currentOf r.shared = r.child := hlost.2.1
  have hheld := hlost.held.1
  subst hr
  rw [hcurrent, hheld]
  exact Finset.mem_singleton_self 0

theorem files_survive_fork_child : ∃ r : ChildCloses,
    Always Shared (bare r.boot r.fs) r.run ∧ Stepwise FreesLast (bare r.boot r.fs) r.run ↔
      Guarded ForksBare (bare r.boot r.fs) r.run := by
  obtain ⟨r, hr, hlost⟩ := childCloses_run
  obtain ⟨hboot, hinit, hrun⟩ := childCloses_exec hr hlost
  exact ⟨r, files_survive_fork_iff hboot hinit hrun⟩

/-- The child closes the file, and init still has the descriptor open but no live object. -/
theorem close_in_child_frees : ∃ r : ChildCloses, Booted r.boot ∧ bootBlank = .ok r.fs ∧
    Exec Step (bare r.boot r.fs) r.run ∧
    ∃ fd ∈ (last (bare r.boot r.fs) r.run).opened .init,
      .init ∈ tasks (last (bare r.boot r.fs) r.run).machine.sched ∧
      (last (bare r.boot r.fs) r.run).fs.files = [] ∧
      ¬Always Shared (bare r.boot r.fs) r.run := by
  obtain ⟨r, hr, hlost⟩ := childCloses_run
  obtain ⟨hboot, hinit, hrun⟩ := childCloses_exec hr hlost
  obtain ⟨-, hcurrent, hne, htable, hnone⟩ := id hlost
  have hheld : (0 : Fin Proc.nrMaxOpen) ∈ (last (bare r.boot r.fs) r.run).opened .init := by
    show 0 ∈ Function.update r.shared.opened r.forked.sched.current _ .init
    rw [hcurrent, Function.update_of_ne hne.symm, hlost.held.2]
    exact Finset.mem_singleton_self 0
  have hlisted : .init ∈ tasks (last (bare r.boot r.fs) r.run).machine.sched := by
    show .init ∈ tasks (stored r.forked r.closeFs.filp).sched
    rw [tasks_stored, mem_tasks]
    exact htable
  refine ⟨r, hboot, hinit, hrun, 0, hheld, hlisted, hnone, fun h => ?_⟩
  obtain ⟨f, hf, -⟩ := h.last.live .init hlisted 0 hheld
  change f ∈ r.closeFs.files at hf
  rw [hnone] at hf
  exact List.not_mem_nil hf

end RxdOs.Kernel.SharedFiles
