/- RxdOs/Kernel/Proc
   source: kernel/proc.c, include/proc.h, kernel/head.c, include/head.h, include/entry.h
   digest: Tasks, the task table, segment descriptors, and the scheduler. -/

import RxdOs.Base.Assert
import RxdOs.Fs.DentryCache

set_option autoImplicit false
set_option relaxedAutoImplicit false

namespace RxdOs.Kernel.Proc

open RxdOs.Base.Assert

abbrev nrMaxOpen : Nat := Fs.DentryCache.nrMaxOpen

abbrev nrTask : Nat := 64

instance : NeZero nrTask := ⟨by decide⟩

def gdtIdxFirstLdt : Nat := 5

/-- head.asm reserves 256 descriptors. -/
def gdtSize : Nat := 256

/-- `struct desc_struct` -/
structure Desc where
  low : UInt32
  high : UInt32
  deriving DecidableEq

def setDescBase (d : Desc) (base : UInt32) : Desc where
  low := (d.low &&& (0x00ff : UInt32)) ||| (base <<< 16)
  high := (d.high &&& (0x00ffff00 : UInt32)) |||
    ((base >>> 16 &&& (0xff : UInt32)) ||| (base &&& (0xff000000 : UInt32)))

def setDescLimit (d : Desc) (limit : UInt32) : Desc :=
  let limit := limit &&& 0xfffff
  { low := (d.low &&& 0xffff0000) ||| (limit &&& 0x0000ffff)
    high := (d.high &&& 0xfff0ffff) ||| (limit &&& 0xf0000) }

/-- The base the processor finds in a descriptor. -/
def descBase (d : Desc) : UInt32 :=
  (d.low >>> 16) ||| ((d.high &&& 0xff) <<< 16) ||| (d.high &&& 0xff000000)

/-- The bits of a base go through the four places of a descriptor that hold them. -/
theorem baseBits (low high base : BitVec 32) :
    let low' := (low &&& 0xff#32) ||| (base <<< 16)
    let high' := (high &&& 0x00ffff00#32) ||| (((base >>> 16) &&& 0xff#32) |||
      (base &&& 0xff000000#32))
    (low' >>> 16) ||| ((high' &&& 0xff#32) <<< 16) ||| (high' &&& 0xff000000#32) = base := by
  ext i hi
  simp only [BitVec.getElem_or, BitVec.getElem_and, BitVec.getElem_shiftLeft,
    BitVec.getElem_ushiftRight, BitVec.getLsbD_or, BitVec.getLsbD_and, BitVec.getLsbD_shiftLeft]
  interval_cases i <;> simp

/-- The processor finds the base that was set. -/
theorem descBase_setDescBase (d : Desc) (base : UInt32) : descBase (setDescBase d base) = base := by
  apply UInt32.toBitVec_inj.mp
  exact baseBits d.low.toBitVec d.high.toBitVec base.toBitVec

/-- The static init_task, or a page of alloc_page. -/
inductive TaskPtr
  | init
  | page (addr : Nat)
  deriving DecidableEq

/-- Where a task that is switched to goes on: the entry of init (only used by
move_to_user_mode), the label `1:` in switch_to, or ret_from_fork. -/
inductive Eip
  | init
  | switched
  | retFromFork
  deriving DecidableEq

/-- `struct thread_info`; esp counts the words from the top of the kernel stack down. -/
structure Thread where
  eip : Eip
  esp : Nat
  ldt : Fin 2 → Desc

/-- `struct task_struct` with the kernel stack above it in the same page: word `k` of `kstack`
is `*(KERNEL_STACK_TOP(task) - k)`. -/
structure Task where
  pid : Int
  thread : Thread
  priority : Int
  timespan : Int
  filp : Fin nrMaxOpen → Option Nat
  kstack : Nat → UInt32

/-- The static data of proc.c, the descriptor table and the task registers. -/
structure Sched where
  task : TaskPtr → Task
  table : Fin nrTask → Option TaskPtr
  current : TaskPtr
  gdt : Nat → Desc
  esp0 : TaskPtr
  ldtr : Int
  initTask : UInt32

def Sched.setTask (s : Sched) (t : TaskPtr) (task : Task) : Sched :=
  { s with task := Function.update s.task t task }

@[simp] theorem Sched.setTask_self (s : Sched) (t : TaskPtr) (task : Task) :
    (s.setTask t task).task t = task := Function.update_self ..

theorem Sched.setTask_of_ne (s : Sched) {t x : TaskPtr} (task : Task) (h : x ≠ t) :
    (s.setTask t task).task x = s.task x := Function.update_of_ne h ..

/-- The address of a task_struct. -/
def Sched.addr (s : Sched) : TaskPtr → UInt32
  | .init => s.initTask
  | .page addr => UInt32.ofNat addr

/-- INIT_IDT_DESC -/
def initIdtDesc : Desc := ⟨0x0, 0x00408200⟩

/-- set_ldt_desc; pid and the two words of eip and esp come before `thread.ldt`. -/
def setLdtDesc (s : Sched) (t : TaskPtr) : Kernel Sched := do
  let desc := setDescLimit (setDescBase initIdtDesc (s.addr t + 12)) (8 * 2)
  let i := gdtIdxFirstLdt + (s.task t).pid
  access (0 ≤ i ∧ i < gdtSize) "gdt[GDT_IDX_FIRST_LDT + p_task->pid]"
  pure { s with gdt := Function.update s.gdt i.toNat desc }

/-- get_pid, or -1 -/
def getPid (s : Sched) : Option (Fin nrTask) :=
  (List.finRange nrTask).find? fun i => (s.table i).isNone

/-- `task_table[pid]` -/
def slotOf (pid : Int) : Kernel (Fin nrTask) :=
  if h : pid.toNat < nrTask ∧ 0 ≤ pid then pure ⟨pid.toNat, h.1⟩
  else .error (.fault "task_table[task->pid]")

def addTask (s : Sched) (t : TaskPtr) : Kernel Sched := do
  let p ← slotOf (s.task t).pid
  assert ((s.table p).isNone) "task_table[task->pid] == NULL"
  pure { s with table := Function.update s.table p (some t) }

/-- copy_process; the page holds the task_struct and its kernel stack. -/
def copyProcess (s : Sched) (child parent : TaskPtr) : Sched := s.setTask child (s.task parent)

/-- INIT_TASK -/
def initTaskStruct : Task where
  pid := 0
  thread := ⟨.init, 0, ![⟨0xfff, 0xc0fa00⟩, ⟨0xfff, 0xc0f200⟩]⟩
  priority := 10
  timespan := 10
  filp _ := none
  kstack _ := 0

/-- An empty task table, then init in its first slot. -/
def withInit (s : Sched) : Sched := { s with
  task := Function.update s.task .init initTaskStruct
  table := Function.update (fun _ => none) 0 (some .init)
  current := .init }

def schedInit (s : Sched) : Kernel Sched := setLdtDesc (withInit s) .init

/-! ## Scheduling -/

/-- switch_to with __switch_to; `esp` is where the stack of `prev` is at that moment. -/
def switchTo (s : Sched) (prev next : TaskPtr) (esp : Nat) : Sched :=
  let s := s.setTask prev { s.task prev with
    thread := { (s.task prev).thread with esp := esp, eip := .switched } }
  { s with esp0 := next, ldtr := gdtIdxFirstLdt + (s.task next).pid, current := next }

theorem switchTo_self (s : Sched) (prev next : TaskPtr) (esp : Nat) :
    (switchTo s prev next esp).task prev = { s.task prev with
      thread := { (s.task prev).thread with esp := esp, eip := .switched } } :=
  Function.update_self ..

theorem switchTo_of_ne (s : Sched) {prev x : TaskPtr} (next : TaskPtr) (esp : Nat) (h : x ≠ prev) :
    (switchTo s prev next esp).task x = s.task x := Function.update_of_ne h ..

/-- `for (p_table = START; p_table != END; ++p_table)` up to current_task. -/
def findCurrent (s : Sched) : Option (Fin nrTask) :=
  (List.finRange nrTask).find? fun p => s.table p = some s.current

/-- `*p_table != NULL && (*p_table)->timespan > 0` -/
def ready (s : Sched) (p : Fin nrTask) : Bool :=
  match s.table p with
  | some t => (s.task t).timespan > 0
  | none => false

/-- The do-while loop; `++p_table` goes from the last slot to the first. -/
def search (s : Sched) : Nat → Fin nrTask → Kernel (Fin nrTask)
  | 0, _ => .error (.fault "while (*p_table != current_task)")
  | fuel + 1, p =>
    if ready s p then pure p
    else if s.table (p + 1) = some s.current then pure (p + 1)
    else search s fuel (p + 1)

/-- `(*p_table)->timespan = (*p_table)->priority` in every occupied slot. -/
def resetAll (s : Sched) : Sched :=
  { s with task := fun t => if ∃ p, s.table p = some t then
      { s.task t with timespan := (s.task t).priority } else s.task t }

/-- How one activation of schedule goes on: it is done, or it calls itself. -/
inductive Pass
  | ran (s : Sched)
  | again (s : Sched)

/-- `--timespan` of the task picked, and the switch to it. -/
def runTask (s : Sched) (t : TaskPtr) (esp : Nat) : Sched :=
  let s := s.setTask t { s.task t with timespan := (s.task t).timespan - 1 }
  if t ≠ s.current then switchTo s s.current t esp else s

def pass (s : Sched) (esp : Nat) : Kernel Pass :=
  match findCurrent s with
  | none => .error (.assertFailed "p_table != END")
  | some cur => do
    let p ← search s nrTask (cur + 1)
    match s.table p with
    | none => .error (.assertFailed "*p_table != NULL")
    | some t =>
      if (s.task t).timespan > 0 then pure (.ran (runTask s t esp))
      else pure (.again (resetAll s))

/-- schedule, with at most `fuel` activations. -/
def schedule (esp : Nat) : Nat → Sched → Kernel Sched
  | 0, _ => .error (.fault "schedule()")
  | fuel + 1, s => do
    match ← pass s esp with
    | .ran s => pure s
    | .again s => schedule esp fuel s

end RxdOs.Kernel.Proc
