/- RxdOs/Kernel/Fork
   source: kernel/syscall_impl.c (do_fork), kernel/entry.asm, include/entry.h
   digest: do_fork on the whole machine, and the way into the kernel and out of it. -/

import RxdOs.Kernel.Scheduler
import RxdOs.Mm.Paging

set_option autoImplicit false
set_option relaxedAutoImplicit false

namespace RxdOs.Kernel.Fork

open RxdOs.Base.Assert RxdOs.Base.Int32 RxdOs.Mm.Memory RxdOs.Mm.Paging RxdOs.Kernel.Proc
  RxdOs.Kernel.Scheduler

/-- The tasks, and the memory; the pages of the tasks themselves are kept as records. -/
structure Machine where
  sched : Sched
  ram : Ram

def _64MB : Int := 0x4000000

/-- `(u32)(pid * _64MB)` -/
def windowBase (pid : Int) : Nat := (toU32 (pid * _64MB)).toNat

/-- `EAX(task)` is word 6 of the kernel stack. -/
def eaxWord : Nat := 6

/-- `FORK_STACK(task)`, in words from the top. -/
def forkStack : Nat := 15

/-- An int as a register holds it. -/
def regOf (x : Int) : UInt32 := UInt32.ofNat (toU32 x).toNat

def withRetval (t : Task) (retval : Int) : Task :=
  { t with kstack := Function.update t.kstack eaxWord (regOf retval) }

def setTaskRetval (s : Sched) (t : TaskPtr) (retval : Int) : Sched :=
  s.setTask t (withRetval (s.task t) retval)

/-- `set_desc_base` on both segments of a task, to the base of its window. -/
def withWindow (t : Task) : Task :=
  { t with thread := { t.thread with
    ldt := fun i => setDescBase (t.thread.ldt i) (UInt32.ofNat (windowBase t.pid)) } }

/-- The resume point of a new child. -/
def withResume (t : Task) : Task :=
  { t with thread := { t.thread with eip := .retFromFork, esp := forkStack } }

/-- The part of do_fork under "Task Struct", and the segments of the child. -/
def cloneTask (s : Sched) (child : TaskPtr) (childPid : Fin nrTask) : Sched :=
  let s := copyProcess s child s.current
  let s := s.setTask child { s.task child with pid := childPid.val }
  s.setTask child (withWindow (s.task child))

/-- The part under "Resume Point & Return Value". -/
def setResume (s : Sched) (child : TaskPtr) : Sched :=
  let s := s.setTask child (withResume (s.task child))
  let s := setTaskRetval s s.current (s.task child).pid
  setTaskRetval s child 0

/-- do_fork; `esp` is where the kernel stack is when schedule switches. -/
def doFork (m : Machine) (esp fuel : Nat) : Kernel Machine :=
  match getPid m.sched with
  | none => pure { m with sched := setTaskRetval m.sched m.sched.current (-1) }
  | some childPid => do
    let (page, mem) ← allocPage m.ram.mem
    let child := TaskPtr.page page
    let s ← setLdtDesc (cloneTask m.sched child childPid) child
    let ram ← shareVma { m.ram with mem := mem } (windowBase (s.task s.current).pid)
      (windowBase (s.task child).pid) (640 * 1024)
    let s ← addTask (setResume s child) child
    let s ← schedule esp fuel s
    pure { sched := s, ram := ram }

/-! ## Into the kernel and out of it -/

/-- The registers of a task in user mode that the kernel saves. -/
structure Regs where
  ss : UInt32
  esp : UInt32
  eflags : UInt32
  cs : UInt32
  eip : UInt32
  eax : UInt32
  ecx : UInt32
  edx : UInt32
  ebx : UInt32
  ebp : UInt32
  esi : UInt32
  edi : UInt32
  ds : UInt32
  es : UInt32

/-- The words from `esp` words below the top on, pushed one after the other. -/
def push (kstack : Nat → UInt32) (esp : Nat) : List UInt32 → (Nat → UInt32) × Nat
  | [] => (kstack, esp)
  | w :: words => push (Function.update kstack (esp + 1) w) (esp + 1) words

/-- The interrupt gate pushes five words, then SAVE_ALL: pushad, ds and es.  `hole` is the
kernel's own esp, which pushad saves and popad skips. -/
def saveAll (kstack : Nat → UInt32) (hole : UInt32) (r : Regs) : (Nat → UInt32) × Nat :=
  push kstack 0 [r.ss, r.esp, r.eflags, r.cs, r.eip, r.eax, r.ecx, r.edx, r.ebx, hole, r.ebp,
    r.esi, r.edi, r.ds, r.es]

/-- RESTORE_ALL and iretd, with the stack `esp` words below the top. -/
def restoreAll (kstack : Nat → UInt32) (esp : Nat) : Regs where
  es := kstack esp
  ds := kstack (esp - 1)
  edi := kstack (esp - 2)
  esi := kstack (esp - 3)
  ebp := kstack (esp - 4)
  ebx := kstack (esp - 6)
  edx := kstack (esp - 7)
  ecx := kstack (esp - 8)
  eax := kstack (esp - 9)
  eip := kstack (esp - 10)
  cs := kstack (esp - 11)
  eflags := kstack (esp - 12)
  esp := kstack (esp - 13)
  ss := kstack (esp - 14)

/-- The words that _hint144_sys_call has saved when it calls syscall_table. -/
def frameWords : Nat := 15

/-- The end of _hint144_sys_call: `mov [esp + 9 * 4], eax`, with what the call left in eax. -/
def sysCallExit (kstack : Nat → UInt32) (eax : UInt32) : Regs :=
  restoreAll (Function.update kstack (frameWords - 9) eax) frameWords

/-- The start of _hint144_sys_call in the current task. -/
def sysCallEnter (s : Sched) (hole : UInt32) (r : Regs) : Sched :=
  s.setTask s.current { s.task s.current with
    kstack := (saveAll (s.task s.current).kstack hole r).1 }

/-- switch_to resumed in a task that do_fork made: esp is loaded, and the jump goes to
ret_from_fork. -/
def retFromFork (t : Task) : Regs := restoreAll t.kstack t.thread.esp

/-! ## Saved registers -/

section Saved

variable {kstack : Nat → UInt32} {hole w : UInt32} {r : Regs}

/-- The saved words come back, with eax as the exit left it. -/
theorem restoreAll_saveAll : restoreAll (Function.update (saveAll kstack hole r).1 eaxWord w)
    frameWords = { r with eax := w } := rfl

theorem sysCallExit_saveAll : sysCallExit (saveAll kstack hole r).1 w = { r with eax := w } := rfl

end Saved

/-! ## What a scheduled machine keeps -/

/-- Of all tasks schedule changes timespans, and the resume point of the one it leaves. -/
structure Kept (t t' : Task) : Prop where
  pid : t'.pid = t.pid
  priority : t'.priority = t.priority
  filp : t'.filp = t.filp
  kstack : t'.kstack = t.kstack
  ldt : t'.thread.ldt = t.thread.ldt

theorem Kept.refl (t : Task) : Kept t t := ⟨rfl, rfl, rfl, rfl, rfl⟩

theorem Kept.trans {t t' t'' : Task} (h : Kept t t') (h' : Kept t' t'') : Kept t t'' :=
  ⟨h'.pid.trans h.pid, h'.priority.trans h.priority, h'.filp.trans h.filp,
    h'.kstack.trans h.kstack, h'.ldt.trans h.ldt⟩

structure Scheduled (s s' : Sched) : Prop where
  task : ∀ t, Kept (s.task t) (s'.task t)
  thread : ∀ t, t ≠ s.current → (s'.task t).thread = (s.task t).thread
  table : s'.table = s.table
  gdt : s'.gdt = s.gdt
  initTask : s'.initTask = s.initTask
  current : s'.current ∈ tasks s

section Schedule

variable {s s' : Sched} {t : TaskPtr} {esp fuel : Nat}

theorem runTask_task_eq (x : TaskPtr) : Kept (s.task x) ((runTask s t esp).task x) ∧
    (x ≠ s.current → ((runTask s t esp).task x).thread = (s.task x).thread) := by
  have htask : Kept (s.task x)
      ((s.setTask t { s.task t with timespan := (s.task t).timespan - 1 }).task x) ∧
      ((s.setTask t { s.task t with timespan := (s.task t).timespan - 1 }).task x).thread =
        (s.task x).thread := by
    by_cases hx : x = t
    · rw [hx, Sched.setTask_self]
      exact ⟨⟨rfl, rfl, rfl, rfl, rfl⟩, rfl⟩
    · rw [Sched.setTask_of_ne s _ hx]
      exact ⟨.refl _, rfl⟩
  by_cases h : t = s.current
  · rw [runTask_self h]
    exact ⟨htask.1, fun _ => htask.2⟩
  · rw [runTask_of_ne h]
    by_cases hx : x = s.current
    · rw [hx, switchTo_self, ← hx]
      exact ⟨htask.1.trans ⟨rfl, rfl, rfl, rfl, rfl⟩, fun hne => absurd rfl hne⟩
    · rw [switchTo_of_ne _ _ _ hx]
      exact ⟨htask.1, fun _ => htask.2⟩

theorem runTask_gdt : (runTask s t esp).gdt = s.gdt ∧
    (runTask s t esp).initTask = s.initTask := by
  by_cases h : t = s.current
  · rw [runTask_self h]
    exact ⟨rfl, rfl⟩
  · rw [runTask_of_ne h]
    exact ⟨rfl, rfl⟩

theorem resetAll_task_kept (x : TaskPtr) : Kept (s.task x) ((resetAll s).task x) ∧
    ((resetAll s).task x).thread = (s.task x).thread := by
  by_cases h : ∃ p, s.table p = some x
  · rw [resetAll_task_eq, if_pos h]
    exact ⟨⟨rfl, rfl, rfl, rfl, rfl⟩, rfl⟩
  · rw [resetAll_task_eq, if_neg h]
    exact ⟨.refl _, rfl⟩

/-- What an activation that returns has done. -/
theorem pass_ok {r : Pass} (h : pass s esp = .ok r) :
    (∃ p t, s.table p = some t ∧ r = .ran (runTask s t esp)) ∨ r = .again (resetAll s) := by
  unfold Proc.pass at h
  cases hfind : findCurrent s with
  | none =>
    rw [hfind] at h
    cases h
  | some cur =>
    rw [hfind] at h
    simp only [bind_eq_ok] at h
    obtain ⟨p, -, h⟩ := h
    cases hp : s.table p with
    | none =>
      rw [hp] at h
      cases h
    | some t =>
      rw [hp] at h
      dsimp only at h
      split_ifs at h
      · simp only [pure_eq_ok, Except.ok.injEq] at h
        exact .inl ⟨p, t, hp, h.symm⟩
      · simp only [pure_eq_ok, Except.ok.injEq] at h
        exact .inr h.symm

theorem schedule_ok (h : schedule esp fuel s = .ok s') : Scheduled s s' := by
  induction fuel generalizing s with
  | zero => cases h
  | succ fuel ih =>
    simp only [schedule, bind_eq_ok] at h
    obtain ⟨r, hpass, h⟩ := h
    obtain ⟨p, t, hp, rfl⟩ | rfl := pass_ok hpass
    · obtain rfl := Except.ok.inj h
      refine ⟨fun x => (runTask_task_eq x).1, fun x hx => (runTask_task_eq x).2 hx, runTask_table,
        runTask_gdt.1, runTask_gdt.2, ?_⟩
      rw [runTask_current]
      exact mem_tasks.mpr ⟨p, hp⟩
    · have hnext := ih h
      have hcurrent : (resetAll s).current = s.current := by rw [resetAll]
      have hgdt : (resetAll s).gdt = s.gdt := by rw [resetAll]
      have hinit : (resetAll s).initTask = s.initTask := by rw [resetAll]
      refine ⟨fun x => (resetAll_task_kept x).1.trans (hnext.task x), fun x hx => ?_,
        hnext.table.trans resetAll_table, hnext.gdt.trans hgdt, hnext.initTask.trans hinit, ?_⟩
      · rw [hnext.thread x (hcurrent ▸ hx), (resetAll_task_kept x).2]
      · have hmem := hnext.current
        rwa [tasks_congr resetAll_table] at hmem

end Schedule

/-! ## What do_fork does -/

section Spec

variable {s s' : Sched} {m m' : Machine} {esp fuel : Nat}

theorem getPid_some {pid : Fin nrTask} (h : getPid s = some pid) : s.table pid = none := by
  have hnone := List.find?_some h
  simpa using hnone

/-- The descriptor of the local descriptor table of `t`. -/
def ldtDesc (s : Sched) (t : TaskPtr) : Desc :=
  setDescLimit (setDescBase initIdtDesc (s.addr t + 12)) (8 * 2)

theorem ldtDesc_congr (h : s'.initTask = s.initTask) (t : TaskPtr) :
    ldtDesc s' t = ldtDesc s t := by
  cases t with
  | init => rw [ldtDesc, ldtDesc, show s'.addr .init = s.addr .init from h]
  | page a => rfl

/-- The tasks right before schedule: `child` is a copy of the current task but for its pid, its
segments, its resume point and its return value. -/
structure Forked (s s' : Sched) (child : TaskPtr) (pid : Fin nrTask) : Prop where
  free : s.table pid = none
  made : s'.task child =
    withRetval (withResume (withWindow { s.task s.current with pid := pid.val })) 0
  parent : s'.task s.current = withRetval (s.task s.current) pid.val
  other : ∀ x, x ≠ child → x ≠ s.current → s'.task x = s.task x
  table : s'.table = Function.update s.table pid (some child)
  current : s'.current = s.current
  initTask : s'.initTask = s.initTask
  gdt : s'.gdt = Function.update s.gdt (gdtIdxFirstLdt + pid.val) (ldtDesc s child)

theorem cloneTask_self (s : Sched) (child : TaskPtr) (pid : Fin nrTask) :
    (cloneTask s child pid).task child =
      withWindow { s.task s.current with pid := pid.val } := by
  simp only [cloneTask, copyProcess, Sched.setTask_self]

theorem cloneTask_of_ne (s : Sched) {child x : TaskPtr} (pid : Fin nrTask) (h : x ≠ child) :
    (cloneTask s child pid).task x = s.task x := by
  simp only [cloneTask, copyProcess, Sched.setTask_of_ne _ _ h]

theorem setResume_self (s : Sched) {child : TaskPtr} (h : child ≠ s.current) :
    (setResume s child).task child = withRetval (withResume (s.task child)) 0 := by
  have hcur : child ≠ (s.setTask child (withResume (s.task child))).current := h
  simp only [setResume, setTaskRetval, Sched.setTask_self, Sched.setTask_of_ne _ _ hcur]

theorem setResume_current (s : Sched) {child : TaskPtr} (h : child ≠ s.current) :
    (setResume s child).task s.current = withRetval (s.task s.current) (s.task child).pid := by
  have hcur : (s.setTask child (withResume (s.task child))).current = s.current := rfl
  simp only [setResume, setTaskRetval, hcur, Sched.setTask_of_ne _ _ h.symm, Sched.setTask_self]
  rfl

theorem setResume_of_ne (s : Sched) {child x : TaskPtr} (h : x ≠ child) (hc : x ≠ s.current) :
    (setResume s child).task x = s.task x := by
  have hcur : (s.setTask child (withResume (s.task child))).current = s.current := rfl
  simp only [setResume, setTaskRetval, hcur, Sched.setTask_of_ne _ _ h, Sched.setTask_of_ne _ _ hc]

theorem setLdtDesc_ok {t : TaskPtr} (h : setLdtDesc s t = .ok s') :
    s'.task = s.task ∧ s'.table = s.table ∧ s'.current = s.current ∧ s'.initTask = s.initTask ∧
      s'.gdt = Function.update s.gdt (gdtIdxFirstLdt + (s.task t).pid : Int).toNat
        (ldtDesc s t) := by
  simp only [setLdtDesc, bind_eq_ok, access_eq_ok, pure_eq_ok, Except.ok.injEq] at h
  obtain ⟨_, -, rfl⟩ := h
  exact ⟨rfl, rfl, rfl, rfl, rfl⟩

/-- After sched_init the table holds init alone. -/
theorem schedInit_ok (h : schedInit s = .ok s') : s'.task .init = initTaskStruct ∧
    s'.table = Function.update (fun _ => none) 0 (some .init) ∧ s'.current = .init ∧
    s'.gdt gdtIdxFirstLdt = ldtDesc s' .init := by
  obtain ⟨htask, htable, hcurrent, hinit, hgdt⟩ := setLdtDesc_ok h
  have hself : (withInit s).task .init = initTaskStruct := by simp [withInit]
  refine ⟨by rw [htask, hself], htable, hcurrent, ?_⟩
  rw [hgdt, ldtDesc_congr hinit, hself]
  exact Function.update_self ..

theorem slotOf_val (pid : Fin nrTask) : slotOf (pid.val : Int) = .ok pid := by
  have hin : (pid.val : Int).toNat < nrTask ∧ (0 : Int) ≤ pid.val := ⟨pid.isLt, Int.natCast_nonneg _⟩
  rw [slotOf, dif_pos hin]
  rfl

theorem addTask_ok {t : TaskPtr} {pid : Fin nrTask} (hpid : (s.task t).pid = pid.val)
    (h : addTask s t = .ok s') :
    s.table pid = none ∧ s' = { s with table := Function.update s.table pid (some t) } := by
  simp only [addTask, hpid, slotOf_val, ok_bind, bind_eq_ok, assert_eq_ok, pure_eq_ok,
    Except.ok.injEq] at h
  obtain ⟨_, hfree, rfl⟩ := h
  exact ⟨by simpa using hfree, rfl⟩

/-- The tasks when the segments of the child are set. -/
theorem cloned_ok {child : TaskPtr} {pid : Fin nrTask} {s₁ : Sched} (hne : child ≠ s.current)
    (h : setLdtDesc (cloneTask s child pid) child = .ok s₁) :
    s₁.current = s.current ∧ s₁.task s.current = s.task s.current ∧
      s₁.task child = withWindow { s.task s.current with pid := pid.val } ∧
      (∀ x, x ≠ child → s₁.task x = s.task x) ∧ s₁.table = s.table ∧ s₁.initTask = s.initTask ∧
      s₁.gdt = Function.update s.gdt (gdtIdxFirstLdt + pid.val) (ldtDesc s child) := by
  obtain ⟨htask, htable, hcurrent, hinit, hgdt⟩ := setLdtDesc_ok h
  have hother : ∀ x, x ≠ child → s₁.task x = s.task x := fun x hx => by
    rw [htask, cloneTask_of_ne _ pid hx]
  refine ⟨hcurrent, hother _ hne.symm, by rw [htask, cloneTask_self], hother, htable, hinit, ?_⟩
  rw [hgdt, cloneTask_self]
  rfl

/-- Without a free pid do_fork sets a return value and nothing else; with one it makes a child,
shares the window with it, and schedules. -/
theorem doFork_ok (h : doFork m esp fuel = .ok m') :
    (getPid m.sched = none ∧
      m' = { m with sched := setTaskRetval m.sched m.sched.current (-1) }) ∨
    ∃ pid page mem, getPid m.sched = some pid ∧ allocPage m.ram.mem = .ok (page, mem) ∧
      (.page page ≠ m.sched.current →
        (∃ s₁, Forked m.sched s₁ (.page page) pid ∧ schedule esp fuel s₁ = .ok m'.sched) ∧
        shareVma { m.ram with mem := mem } (windowBase (m.sched.task m.sched.current).pid)
          (windowBase pid.val) (640 * 1024) = .ok m'.ram) := by
  unfold doFork at h
  cases hpid : getPid m.sched with
  | none =>
    rw [hpid] at h
    exact .inl ⟨rfl, (Except.ok.inj h).symm⟩
  | some pid =>
    rw [hpid] at h
    simp only [bind_eq_ok, pure_eq_ok, Except.ok.injEq] at h
    obtain ⟨⟨page, mem⟩, halloc, s₁, hldt, ram, hshare, s₂, hadd, s₃, hsched, rfl⟩ := h
    refine .inr ⟨pid, page, mem, rfl, halloc, fun hne => ?_⟩
    obtain ⟨hcurrent, hparent, hchild, hother, htable, hinit, hgdt⟩ := cloned_ok hne hldt
    have hne₁ : .page page ≠ s₁.current := hcurrent ▸ hne
    have hcpid : (s₁.task (.page page)).pid = pid.val := by
      rw [hchild]
      rfl
    have hpid' : ((setResume s₁ (.page page)).task (.page page)).pid = pid.val := by
      rw [setResume_self s₁ hne₁]
      exact hcpid
    obtain ⟨-, rfl⟩ := addTask_ok hpid' hadd
    refine ⟨⟨_, ⟨getPid_some hpid, ?_, ?_, ?_, ?_, ?_, ?_, ?_⟩, hsched⟩, ?_⟩
    · show (setResume s₁ (.page page)).task (.page page) = _
      rw [setResume_self s₁ hne₁, hchild]
    · show (setResume s₁ (.page page)).task m.sched.current = _
      rw [← hcurrent, setResume_current s₁ hne₁, hcpid, hcurrent, hparent]
    · intro x hx hxc
      show (setResume s₁ (.page page)).task x = _
      rw [setResume_of_ne s₁ hx (hcurrent ▸ hxc), hother x hx]
    · show Function.update s₁.table pid _ = _
      rw [htable]
    · exact hcurrent
    · exact hinit
    · exact hgdt
    · rw [hcurrent, hparent, hcpid] at hshare
      exact hshare

end Spec

end RxdOs.Kernel.Fork
