/- RxdOs/Kernel/ForkReturn
   source: kernel/syscall_impl.c (do_fork), kernel/entry.asm, include/entry.h
   digest: The child of a fork always resumes with 0.  The parent resumes with whatever do_fork
   left in eax, because _hint144_sys_call stores it over the return value. -/

import RxdOs.Kernel.TaskWindow

set_option autoImplicit false
set_option relaxedAutoImplicit false

namespace RxdOs.Kernel.ForkReturn

open RxdOs.Base.Assert RxdOs.Lib.Execution RxdOs.Mm.Memory RxdOs.Mm.Paging RxdOs.Kernel.Proc
  RxdOs.Kernel.Scheduler RxdOs.Kernel.Fork RxdOs.Kernel.TaskWindow

/-- The current task enters the kernel, with the registers `r`. -/
def enter (m : Machine) (hole : UInt32) (r : Regs) : Machine :=
  { m with sched := sysCallEnter m.sched hole r }

inductive Act
  | enter (hole : UInt32) (r : Regs)
  | event (a : Event)

inductive Step : Machine → Act → Machine → Prop
  | enter (m : Machine) (hole : UInt32) (r : Regs) : Step m (.enter hole r) (enter m hole r)
  | event {m m' : Machine} {a : Event} : TaskWindow.Step m a m' → Step m (.event a) m'

/-- A step of some task other than `t`, which waits in the kernel. -/
def Away (t : TaskPtr) (m : Machine) (a : Act) (m' : Machine) : Prop :=
  m.sched.current ≠ t ∧ Step m a m'

variable {m m' : Machine} {t : TaskPtr} {hole : UInt32} {r : Regs} {esp fuel : Nat}

theorem enter_task_of_ne (h : t ≠ m.sched.current) :
    (enter m hole r).sched.task t = m.sched.task t := Sched.setTask_of_ne _ _ h

theorem windows_enter (h : Windows m) (hole : UInt32) (r : Regs) : Windows (enter m hole r) := by
  refine ⟨h.placed.keep (fun x => ?_) rfl rfl rfl h.placed.current_mem,
    ⟨h.mapped.live, h.mapped.frame⟩, h.housed⟩
  by_cases hx : x = m.sched.current
  · rw [hx, enter, sysCallEnter, Sched.setTask_self]
    exact ⟨rfl, rfl⟩
  · rw [enter_task_of_ne hx]
    exact ⟨rfl, rfl⟩

theorem windows_step (h : Windows m) {a : Act} (st : Step m a m') : Windows m' := by
  cases st with
  | enter hole r => exact windows_enter h hole r
  | event st => exact (h.step st).1

/-- What nobody else touches: the saved registers of a task that waits, and where it goes on. -/
def Unmoved (t t' : Task) : Prop := t'.kstack = t.kstack ∧ t'.thread = t.thread

theorem unmoved_fork (h : Windows m) (ht : t ∈ tasks m.sched) (hne : m.sched.current ≠ t)
    (hfork : doFork m esp fuel = .ok m') :
    Unmoved (m.sched.task t) (m'.sched.task t) ∧ t ∈ tasks m'.sched := by
  obtain ⟨p, hp⟩ := mem_tasks.mp ht
  rcases doFork_child h hfork with ⟨-, rfl⟩ |
    ⟨pid, page, mem, s₁, -, -, hfresh, hf, hsched, -⟩
  · refine ⟨?_, mem_tasks_of_table (s := m.sched) rfl ht⟩
    show Unmoved _ ((setTaskRetval m.sched m.sched.current (-1)).task t)
    rw [setTaskRetval, Sched.setTask_of_ne _ _ hne.symm]
    exact ⟨rfl, rfl⟩
  · have hchild : t ≠ .page page := fun heq => hfresh p (heq ▸ hp)
    have hsame := hf.other t hchild hne.symm
    have hcur : t ≠ s₁.current := by
      rw [hf.current]
      exact hne.symm
    refine ⟨⟨?_, ?_⟩, ?_⟩
    · rw [(hsched.task t).kstack, hsame]
    · rw [hsched.thread t hcur, hsame]
    · rw [tasks_congr hsched.table, mem_tasks]
      have hpp : p ≠ pid := fun heq => by
        rw [heq, hf.free] at hp
        cases hp
      exact ⟨p, by rw [hf.table, Function.update_of_ne hpp, hp]⟩

theorem unmoved_step (h : Windows m) (ht : t ∈ tasks m.sched) {a : Act} (st : Away t m a m') :
    Unmoved (m.sched.task t) (m'.sched.task t) ∧ t ∈ tasks m'.sched := by
  obtain ⟨hne, st⟩ := st
  cases st with
  | enter hole r =>
    rw [enter_task_of_ne hne.symm]
    exact ⟨⟨rfl, rfl⟩, mem_tasks_of_table (s := m.sched) rfl ht⟩
  | event st =>
    cases st with
    | fork hfork => exact unmoved_fork h ht hne hfork
    | fault _ _ => exact ⟨⟨rfl, rfl⟩, ht⟩
    | clock hsched =>
      have hs := schedule_ok hsched
      exact ⟨⟨(hs.task t).kstack, hs.thread t hne.symm⟩, mem_tasks_of_table hs.table ht⟩
    | dispatch hx =>
      refine ⟨?_, mem_tasks_of_table (s := m.sched) rfl ht⟩
      show Unmoved _ ((switchTo _ _ _ _).task t)
      rw [switchTo_of_ne _ _ _ hne.symm]
      exact ⟨rfl, rfl⟩

/-- However long it waits. -/
theorem unmoved_reach (h : Windows m) (ht : t ∈ tasks m.sched) (hreach : Reach (Away t) m m') :
    Unmoved (m.sched.task t) (m'.sched.task t) := by
  let P : Machine → Prop := fun x =>
    Windows x ∧ t ∈ tasks x.sched ∧ Unmoved (m.sched.task t) (x.sched.task t)
  have hinv : P m' := by
    refine Reach.inv hreach ?_ ⟨h, ht, rfl, rfl⟩
    rintro x a x' ⟨hx, hmem, hsame⟩ st
    obtain ⟨hnext, hmem'⟩ := unmoved_step hx hmem st
    exact ⟨windows_step hx st.2, hmem', hnext.1.trans hsame.1, hnext.2.trans hsame.2⟩
  exact hinv.2.2

/-! ## Coming back from a fork -/

/-- The registers of the task that called, when the call has left `eax`. -/
def resumed (m : Machine) (t : TaskPtr) (eax : UInt32) : Regs :=
  sysCallExit (m.sched.task t).kstack eax

/-- The parent of a fork made with the registers `r` resumes with the pid of the child, or -1, in
EAX, the child with 0, and both with all other registers as they were. -/
def ForkReturns (m : Machine) (r : Regs) (eax : UInt32) (m' : Machine) : Prop :=
  match getPid m.sched with
  | none => m'.sched.table = m.sched.table ∧
      resumed m' m.sched.current eax = { r with eax := regOf (-1) }
  | some pid => ∃ child, m'.sched.table pid = some child ∧
      (∀ m'', Reach (Away m.sched.current) m' m'' →
        resumed m'' m.sched.current eax = { r with eax := regOf pid.val }) ∧
      ∀ m'', Reach (Away child) m' m'' → (m''.sched.task child).thread.eip = .retFromFork ∧
        retFromFork (m''.sched.task child) = { r with eax := 0 }

/-- What do_fork should have left in eax. -/
def forkValue (m : Machine) : UInt32 :=
  match getPid m.sched with
  | none => regOf (-1)
  | some pid => regOf pid.val

theorem regs_eax_eq {a b : UInt32} : ({ r with eax := a } : Regs) = { r with eax := b } ↔ a = b :=
  ⟨fun h => congrArg Regs.eax h, fun h => h ▸ rfl⟩

/-- The exit writes its eax over whatever the call has put there. -/
theorem resumed_of_kstack {kstack : Nat → UInt32} {v eax : UInt32}
    (h : (m'.sched.task t).kstack = Function.update (saveAll kstack hole r).1 eaxWord v) :
    resumed m' t eax = { r with eax := eax } := by
  rw [resumed, h, sysCallExit]
  show restoreAll (Function.update (Function.update _ eaxWord v) eaxWord eax) frameWords = _
  rw [Function.update_idem]
  exact restoreAll_saveAll

/-- do_fork comes back as it should exactly when the register that the void function leaves
behind happens to hold the value it should return. -/
theorem fork_returns_iff {m₀ : Machine} (hboot : Booted m₀) (hreach : Reach Step m₀ m)
    (hfork : doFork (enter m hole r) esp fuel = .ok m') (eax : UInt32) :
    ForkReturns m r eax m' ↔ eax = forkValue m := by
  have hm : Windows m := hreach.inv (fun _ _ _ hx st => windows_step hx st) hboot.windows
  have hwin := windows_enter hm hole r
  have hwin' := (hwin.fork hfork).1
  have hpidEq : getPid (enter m hole r).sched = getPid m.sched := rfl
  have hsaved : ((enter m hole r).sched.task m.sched.current).kstack =
      (saveAll (m.sched.task m.sched.current).kstack hole r).1 := by
    rw [enter, sysCallEnter, Sched.setTask_self]
  rw [ForkReturns, forkValue]
  rcases doFork_child hwin hfork with ⟨hnone, rfl⟩ |
    ⟨pid, page, mem, s₁, hpid, -, hfresh, hf, hsched, -⟩
  · rw [← hpidEq, hnone]
    have hback : resumed ⟨setTaskRetval (enter m hole r).sched m.sched.current (-1), m.ram⟩
        m.sched.current eax = { r with eax := eax } := by
      have hkstack : ((setTaskRetval (enter m hole r).sched m.sched.current (-1)).task
          m.sched.current).kstack =
          Function.update (saveAll (m.sched.task m.sched.current).kstack hole r).1 eaxWord
            (regOf (-1)) := by
        rw [setTaskRetval, Sched.setTask_self, withRetval, hsaved]
      exact resumed_of_kstack hkstack
    constructor
    · rintro ⟨-, h⟩
      exact regs_eax_eq.mp (hback.symm.trans h)
    · intro h
      exact ⟨rfl, hback.trans (regs_eax_eq.mpr h)⟩
  · rw [← hpidEq, hpid]
    have hcurrent : (enter m hole r).sched.current = m.sched.current := rfl
    obtain ⟨c, hc⟩ := hwin.placed.tabled.current
    have hne : m.sched.current ≠ .page page := fun heq => hfresh c (hc.trans (congrArg some heq))
    have htable : m'.sched.table = Function.update m.sched.table pid (some (.page page)) := by
      rw [hsched.table, hf.table]
      rfl
    have hchild : m'.sched.table pid = some (.page page) := by rw [htable, Function.update_self]
    have hparentMem : m.sched.current ∈ tasks m'.sched := by
      have hcp : c ≠ pid := fun heq => by
        rw [heq, hf.free] at hc
        cases hc
      exact mem_tasks.mpr ⟨c, by rw [htable, Function.update_of_ne hcp]; exact hc⟩
    have hparent : (m'.sched.task m.sched.current).kstack =
        Function.update (saveAll (m.sched.task m.sched.current).kstack hole r).1 eaxWord
          (regOf pid.val) := by
      rw [(hsched.task _).kstack, ← hcurrent, hf.parent, hcurrent, withRetval, hsaved]
    have hback : ∀ m'', Reach (Away m.sched.current) m' m'' →
        resumed m'' m.sched.current eax = { r with eax := eax } := by
      intro m'' hm''
      exact resumed_of_kstack ((unmoved_reach hwin' hparentMem hm'').1.trans hparent)
    have hmade := hf.made
    rw [hcurrent] at hmade
    have hchildTask : Unmoved (withRetval (withResume (withWindow
        { (enter m hole r).sched.task m.sched.current with pid := pid.val })) 0)
        (m'.sched.task (.page page)) := by
      have hcur : .page page ≠ s₁.current := by
        rw [hf.current]
        exact hne.symm
      exact ⟨by rw [(hsched.task _).kstack, hmade], by rw [hsched.thread _ hcur, hmade]⟩
    have hchildBack : ∀ m'', Reach (Away (.page page)) m' m'' →
        (m''.sched.task (.page page)).thread.eip = .retFromFork ∧
          retFromFork (m''.sched.task (.page page)) = { r with eax := 0 } := by
      intro m'' hm''
      have hstill := unmoved_reach hwin' (mem_tasks.mpr ⟨pid, hchild⟩) hm''
      have hthread := hstill.2.trans hchildTask.2
      have hkstack := hstill.1.trans hchildTask.1
      refine ⟨by rw [hthread]; rfl, ?_⟩
      rw [retFromFork, hthread, hkstack]
      show restoreAll (Function.update ((enter m hole r).sched.task m.sched.current).kstack
        eaxWord (regOf 0)) frameWords = _
      rw [hsaved]
      exact restoreAll_saveAll
    constructor
    · rintro ⟨child, -, h, -⟩
      exact regs_eax_eq.mp ((hback m' .refl).symm.trans (h m' .refl))
    · intro h
      exact ⟨.page page, hchild, fun m'' hm'' => (hback m'' hm'').trans (regs_eax_eq.mpr h), hchildBack⟩

/-! ## The first fork -/

def someRegs : Regs := ⟨0x0f, 0x9000, 0x3200, 0x07, 0x1234, 0, 1, 2, 3, 4, 5, 6, 0x0f, 0x0f⟩

theorem first_fork : ∃ m m', bootMachine = .ok m ∧ doFork (enter m 0 someRegs) 0 2 = .ok m' ∧
    getPid m.sched = some 1 := by
  have hrun : (match bootMachine with
      | .ok m =>
        match doFork (enter m 0 someRegs) 0 2 with
        | .ok _ => decide (getPid m.sched = some 1)
        | .error _ => false
      | .error _ => false) = true := by decide +kernel
  split at hrun
  swap
  · cases hrun
  rename_i m hboot
  split at hrun
  swap
  · cases hrun
  rename_i m' hfork
  exact ⟨m, m', hboot, hfork, of_decide_eq_true hrun⟩

theorem fork_returns_first : ∃ m m', doFork (enter m 0 someRegs) 0 2 = .ok m' ∧
    ForkReturns m someRegs 1 m' := by
  obtain ⟨m, m', hboot, hfork, hpid⟩ := first_fork
  have hvalue : 1 = forkValue m := by
    rw [forkValue, hpid]
    rfl
  exact ⟨m, m', hfork,
    (fork_returns_iff (bootMachine_booted hboot) .refl hfork 1).mpr hvalue⟩

/-- init forks, and do_fork leaves 7 in eax: the parent takes the child's pid to be 7. -/
theorem fork_value_lost : ∃ m m', bootMachine = .ok m ∧
    doFork (enter m 0 someRegs) 0 2 = .ok m' ∧ getPid m.sched = some 1 ∧
    ¬ForkReturns m someRegs 7 m' := by
  obtain ⟨m, m', hboot, hfork, hpid⟩ := first_fork
  refine ⟨m, m', hboot, hfork, hpid, fun h => ?_⟩
  have hvalue := (fork_returns_iff (bootMachine_booted hboot) .refl hfork 7).mp h
  rw [forkValue, hpid] at hvalue
  exact absurd hvalue (by decide)

end RxdOs.Kernel.ForkReturn
