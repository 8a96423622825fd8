/- RxdOs/Kernel/TaskWindow
   source: kernel/syscall_impl.c, kernel/proc.c, mm/memory.c, boot/head.asm
   digest: Over all runs of forks and page faults, pids, descriptors, windows and page
   directory entries of the tasks stay apart. -/

import RxdOs.Kernel.Fork

set_option autoImplicit false
set_option relaxedAutoImplicit false

namespace RxdOs.Kernel.TaskWindow

open RxdOs.Base.Assert RxdOs.Base.Int32 RxdOs.Lib.Execution RxdOs.Mm.Memory RxdOs.Mm.Paging
  RxdOs.Kernel.Proc RxdOs.Kernel.Scheduler RxdOs.Kernel.Fork

/-- 64 MB -/
def windowSize : Nat := 0x4000000

/-- The pid times 64 MB needs no more than 32 bits. -/
theorem windowBase_eq (p : Fin nrTask) : windowBase p.val = p.val * windowSize := by
  have hp : p.val < 64 := p.isLt
  simp only [windowBase, toU32, _64MB, windowSize]
  omega

/-- A linear address that the segments of task `pid` lead to. -/
def InWindow (pid : Int) (addr : Nat) : Prop :=
  windowBase pid ≤ addr ∧ addr < windowBase pid + windowSize

/-- Entry `i` of the page directory maps part of the window of pid `p`. -/
def Covers (p : Fin nrTask) (i : Nat) : Prop :=
  windowBase p.val ≤ i * 2 ^ 22 ∧ (i + 1) * 2 ^ 22 ≤ windowBase p.val + windowSize

theorem covers_iff {p : Fin nrTask} {i : Nat} : Covers p i ↔ i / 16 = p.val := by
  rw [Covers, windowBase_eq, windowSize]
  omega

theorem pdeIndex_of_inWindow {p : Fin nrTask} {addr : Nat} (h : InWindow p.val addr) :
    pdeIndex addr < 1024 ∧ Covers p (pdeIndex addr) := by
  have hp : p.val < 64 := p.isLt
  obtain ⟨hlo, hhi⟩ := h
  rw [covers_iff]
  rw [windowBase_eq, windowSize] at *
  simp only [pdeIndex]
  omega

theorem pdeIndex_windowBase (p : Fin nrTask) : pdeIndex (windowBase p.val) = 16 * p.val := by
  rw [pdeIndex, windowBase_eq, windowSize]
  omega

/-! ## Runs -/

/-- `dispatch` lets any task of the table run next, whatever schedule would choose. -/
inductive Event
  | fork (esp fuel : Nat)
  | fault (addr : Nat)
  | clock (esp fuel : Nat)
  | dispatch (t : TaskPtr) (esp : Nat)

inductive Step : Machine → Event → Machine → Prop
  | fork {m m' : Machine} {esp fuel : Nat} : doFork m esp fuel = .ok m' →
      Step m (.fork esp fuel) m'
  | fault {m : Machine} {addr : Nat} {ram : Ram} :
      InWindow (m.sched.task m.sched.current).pid addr → doNoPage m.ram addr = .ok ram →
      Step m (.fault addr) { m with ram := ram }
  | clock {m : Machine} {esp fuel : Nat} {s : Sched} : schedule esp fuel m.sched = .ok s →
      Step m (.clock esp fuel) { m with sched := s }
  | dispatch {m : Machine} {t : TaskPtr} {esp : Nat} : t ∈ tasks m.sched →
      Step m (.dispatch t esp) { m with sched := switchTo m.sched m.sched.current t esp }

/-- The machine after sched_init; head.asm has set up four page tables and nothing else. -/
structure Booted (m : Machine) : Prop where
  sched : ∃ s, schedInit s = .ok m.sched
  tables : ∀ i < 4, pde m.ram.phys i = (i + 1) * pageSize + 7
  empty : ∀ i < 1024, 4 ≤ i → pde m.ram.phys i = 0

/-- The pid whose window an event makes entries for. -/
def MadeFor (m : Machine) (p : Fin nrTask) : Event → Prop
  | .fork .. => getPid m.sched = some p
  | .fault _ => (m.sched.task m.sched.current).pid = p.val
  | _ => False

/-- Every task of the table in its own slot, with its own descriptor and its own segments. -/
structure Placed (s : Sched) : Prop where
  tabled : Tabled s
  slot : ∀ p t, s.table p = some t → s.gdt (gdtIdxFirstLdt + p.val) = ldtDesc s t
  base : ∀ p t, s.table p = some t → ∀ i, descBase ((s.task t).thread.ldt i) =
    UInt32.ofNat (windowBase p.val)

/-- The page directory has entries in windows of live pids only, and none points to itself. -/
structure Mapped (m : Machine) : Prop where
  live : ∀ i < 1024, pde m.ram.phys i ≠ 0 → ∃ p, m.sched.table p ≠ none ∧ Covers p i
  frame : ∀ i < 1024, pde m.ram.phys i ≠ 0 → pageSize ≤ frameOf (pde m.ram.phys i)

/-- The page of every task but init is in use. -/
def Housed (m : Machine) : Prop := ∀ p a, m.sched.table p = some (.page a) →
  ∃ k, a = lowMem + k * pageSize ∧ m.ram.mem.memMap k ≠ 0

structure Windows (m : Machine) : Prop where
  placed : Placed m.sched
  mapped : Mapped m
  housed : Housed m

section Steps

variable {s s' : Sched} {m m' : Machine} {t child : TaskPtr} {pid : Fin nrTask} {esp fuel : Nat}

/-- Only the pids and segments of the tasks matter. -/
theorem Placed.keep (h : Placed s)
    (htask : ∀ x, (s'.task x).pid = (s.task x).pid ∧
      (s'.task x).thread.ldt = (s.task x).thread.ldt)
    (htable : s'.table = s.table) (hgdt : s'.gdt = s.gdt) (hinit : s'.initTask = s.initTask)
    (hcurrent : s'.current ∈ tasks s) : Placed s' := by
  refine ⟨⟨fun p x hp => ?_, ?_⟩, fun p x hp => ?_, fun p x hp i => ?_⟩
  · rw [(htask x).1]
    exact h.tabled.pid p x (htable ▸ hp)
  · rw [htable]
    exact mem_tasks.mp hcurrent
  · rw [hgdt, ldtDesc_congr hinit]
    exact h.slot p x (htable ▸ hp)
  · rw [(htask x).2]
    exact h.base p x (htable ▸ hp) i

theorem Placed.scheduled (h : Placed s) (hs : Scheduled s s') : Placed s' :=
  h.keep (fun x => ⟨(hs.task x).pid, (hs.task x).ldt⟩) hs.table hs.gdt hs.initTask hs.current

theorem Placed.current_mem (h : Placed s) : s.current ∈ tasks s := mem_tasks.mpr h.tabled.current

theorem Placed.retval (h : Placed s) (t : TaskPtr) (retval : Int) :
    Placed (setTaskRetval s t retval) := by
  refine h.keep (fun x => ?_) rfl rfl rfl h.current_mem
  by_cases hx : x = t
  · rw [hx, setTaskRetval, Sched.setTask_self]
    exact ⟨rfl, rfl⟩
  · rw [setTaskRetval, Sched.setTask_of_ne _ _ hx]
    exact ⟨rfl, rfl⟩

theorem Placed.dispatch (h : Placed s) (ht : t ∈ tasks s) (esp : Nat) :
    Placed (switchTo s s.current t esp) := by
  refine h.keep (fun x => ?_) rfl rfl rfl ht
  by_cases hx : x = s.current
  · rw [hx, switchTo_self]
    exact ⟨rfl, rfl⟩
  · rw [switchTo_of_ne _ _ _ hx]
    exact ⟨rfl, rfl⟩

/-- The tasks after a fork are the old ones and the child. -/
theorem table_forked (hf : Forked s s' child pid) {p : Fin nrTask} {x : TaskPtr}
    (hp : s'.table p = some x) : (p = pid ∧ x = child) ∨ p ≠ pid ∧ s.table p = some x := by
  rw [hf.table] at hp
  by_cases hpp : p = pid
  · rw [hpp, Function.update_self] at hp
    exact .inl ⟨hpp, (Option.some.inj hp).symm⟩
  · rw [Function.update_of_ne hpp] at hp
    exact .inr ⟨hpp, hp⟩

/-- A child in a free slot. -/
theorem Placed.forked (h : Placed s) (hf : Forked s s' child pid)
    (hfresh : ∀ p, s.table p ≠ some child) : Placed s' := by
  have hold : ∀ x, x ≠ child → (s'.task x).pid = (s.task x).pid ∧
      (s'.task x).thread = (s.task x).thread := by
    intro x hx
    by_cases hc : x = s.current
    · rw [hc, hf.parent]
      exact ⟨rfl, rfl⟩
    · rw [hf.other x hx hc]
      exact ⟨rfl, rfl⟩
  have hne : ∀ p x, s.table p = some x → x ≠ child := fun p x hp heq => hfresh p (heq ▸ hp)
  refine ⟨⟨fun p x hp => ?_, ?_⟩, fun p x hp => ?_, fun p x hp i => ?_⟩
  · obtain ⟨rfl, rfl⟩ | ⟨-, hp⟩ := table_forked hf hp
    · rw [hf.made]
      rfl
    · rw [(hold x (hne p x hp)).1]
      exact h.tabled.pid p x hp
  · obtain ⟨c, hc⟩ := h.tabled.current
    have hcp : c ≠ pid := fun heq => by
      rw [heq, hf.free] at hc
      cases hc
    refine ⟨c, ?_⟩
    rw [hf.table, Function.update_of_ne hcp, hf.current, hc]
  · rw [hf.gdt, ldtDesc_congr hf.initTask]
    obtain ⟨rfl, rfl⟩ | ⟨hpp, hp⟩ := table_forked hf hp
    · exact Function.update_self ..
    · have hslot : gdtIdxFirstLdt + p.val ≠ gdtIdxFirstLdt + pid.val := fun heq =>
        hpp (Fin.ext (Nat.add_left_cancel heq))
      rw [Function.update_of_ne hslot]
      exact h.slot p x hp
  · obtain ⟨rfl, rfl⟩ | ⟨-, hp⟩ := table_forked hf hp
    · rw [hf.made]
      exact descBase_setDescBase _ _
    · rw [(hold x (hne p x hp)).2]
      exact h.base p x hp i

/-- A frame that was free houses no task. -/
theorem Housed.fresh (h : Housed m) {page : Nat} {mem : Mem}
    (halloc : allocPage m.ram.mem = .ok (page, mem)) (p : Fin nrTask) :
    m.sched.table p ≠ some (.page page) := by
  intro hp
  obtain ⟨j, -, hj, hfree, -⟩ := allocPage_ok halloc
  obtain ⟨k, hk, hused⟩ := h p page hp
  have hkj : k = j := by
    rw [hj] at hk
    simp only [lowMem, pageSize] at hk
    omega
  exact hused (hkj ▸ hfree)

/-- What a fork with a free pid has done before it schedules. -/
theorem doFork_child (h : Windows m) (hfork : doFork m esp fuel = .ok m') :
    (getPid m.sched = none ∧
      m' = { m with sched := setTaskRetval m.sched m.sched.current (-1) }) ∨
    ∃ pid page mem s₁, getPid m.sched = some pid ∧ allocPage m.ram.mem = .ok (page, mem) ∧
      (∀ p, m.sched.table p ≠ some (.page page)) ∧ Forked m.sched s₁ (.page page) pid ∧
      Scheduled s₁ m'.sched ∧
      shareVma { m.ram with mem := mem } (windowBase (m.sched.task m.sched.current).pid)
        (windowBase pid.val) (640 * 1024) = .ok m'.ram := by
  refine (doFork_ok hfork).imp_right ?_
  rintro ⟨pid, page, mem, hpid, halloc, hrest⟩
  have hfresh := h.housed.fresh halloc
  obtain ⟨c, hc⟩ := h.placed.tabled.current
  obtain ⟨⟨s₁, hf, hsched⟩, hshare⟩ := hrest fun heq => hfresh c (heq ▸ hc)
  exact ⟨pid, page, mem, s₁, hpid, halloc, hfresh, hf, schedule_ok hsched, hshare⟩

theorem Windows.fork (h : Windows m) (hfork : doFork m esp fuel = .ok m') :
    Windows m' ∧ ∀ i < 1024, pde m'.ram.phys i ≠ pde m.ram.phys i →
      ∃ p, getPid m.sched = some p ∧ Covers p i := by
  rcases doFork_child h hfork with ⟨-, rfl⟩ |
    ⟨pid, page, mem, s₁, hpid, halloc, hfresh, hf, hsched, hshare⟩
  · exact ⟨⟨h.placed.retval _ _, ⟨h.mapped.live, h.mapped.frame⟩, h.housed⟩,
      fun i _ hne => absurd rfl hne⟩
  have hindex := pdeIndex_windowBase pid
  have hlt : pid.val < 64 := pid.isLt
  have hto : pdeIndex (windowBase pid.val) < 1024 := by omega
  obtain ⟨-, table, halloc', hpde⟩ := shareVma_pde hto hshare
  obtain ⟨hle, -, hframe⟩ := pageSize_le_alloc halloc'
  have hcovers : Covers pid (pdeIndex (windowBase pid.val)) := by
    rw [covers_iff]
    omega
  have htable : m'.sched.table = Function.update m.sched.table pid (some (.page page)) := by
    rw [hsched.table, hf.table]
  have hused : ∀ k, m.ram.mem.memMap k ≠ 0 → m'.ram.mem.memMap k ≠ 0 := fun k hk =>
    allocPage_used halloc' (allocPage_used halloc hk)
  refine ⟨⟨(h.placed.forked hf hfresh).scheduled hsched, ⟨fun i hi hne => ?_, fun i hi hne => ?_⟩,
    fun p a hp => ?_⟩, fun i hi hne => ?_⟩
  · rw [hpde i hi] at hne
    by_cases hip : i = pdeIndex (windowBase pid.val)
    · refine ⟨pid, ?_, hip ▸ hcovers⟩
      rw [htable, Function.update_self]
      exact Option.some_ne_none _
    · rw [if_neg hip] at hne
      obtain ⟨p, hp, hc⟩ := h.mapped.live i hi hne
      refine ⟨p, ?_, hc⟩
      have hpp : p ≠ pid := fun heq => hp (heq ▸ hf.free)
      rwa [htable, Function.update_of_ne hpp]
  · rw [hpde i hi] at hne ⊢
    by_cases hip : i = pdeIndex (windowBase pid.val)
    · rw [if_pos hip, frameOf_entryOf, hframe]
      exact hle
    · rw [if_neg hip] at hne ⊢
      exact h.mapped.frame i hi hne
  · rw [htable] at hp
    by_cases hpp : p = pid
    · rw [hpp, Function.update_self] at hp
      obtain rfl : page = a := TaskPtr.page.inj (Option.some.inj hp)
      obtain ⟨k, -, hk, -, hmem⟩ := allocPage_ok halloc
      refine ⟨k, hk, allocPage_used halloc' ?_⟩
      rw [hmem]
      show Function.update m.ram.mem.memMap k 1 k ≠ 0
      rw [Function.update_self]
      decide
    · rw [Function.update_of_ne hpp] at hp
      obtain ⟨k, hk, hmem⟩ := h.housed p a hp
      exact ⟨k, hk, hused k hmem⟩
  · rw [hpde i hi] at hne
    by_cases hip : i = pdeIndex (windowBase pid.val)
    · exact ⟨pid, hpid, hip ▸ hcovers⟩
    · exact absurd (if_neg hip) hne

theorem Windows.fault (h : Windows m) {addr : Nat} {ram : Ram}
    (hin : InWindow (m.sched.task m.sched.current).pid addr) (hfault : doNoPage m.ram addr = .ok ram) :
    Windows { m with ram := ram } ∧ ∀ i < 1024, pde ram.phys i ≠ pde m.ram.phys i →
      ∃ p : Fin nrTask, (m.sched.task m.sched.current).pid = p.val ∧ Covers p i := by
  obtain ⟨c, hc⟩ := h.placed.tabled.current
  have hpid := h.placed.tabled.pid c _ hc
  rw [hpid] at hin
  obtain ⟨hlt, hcovers⟩ := pdeIndex_of_inWindow hin
  have htab : present (pde m.ram.phys (pdeIndex addr)) = true →
      pageSize ≤ frameOf (pde m.ram.phys (pdeIndex addr)) := by
    intro hp
    refine h.mapped.frame _ hlt fun hzero => ?_
    rw [hzero] at hp
    cases hp
  obtain ⟨hother, hframe, hused⟩ := doNoPage_pde hlt htab hfault
  refine ⟨⟨h.placed, ⟨fun i hi hne => ?_, fun i hi hne => ?_⟩, fun p a hp => ?_⟩, fun i hi hne => ?_⟩
  · by_cases hia : i = pdeIndex addr
    · refine ⟨c, ?_, hia ▸ hcovers⟩
      rw [show m.sched.table c = some m.sched.current from hc]
      exact Option.some_ne_none _
    · rw [show pde ram.phys i = pde m.ram.phys i from hother i hi hia] at hne
      exact h.mapped.live i hi hne
  · by_cases hia : i = pdeIndex addr
    · rw [hia]
      exact hframe
    · rw [show pde ram.phys i = pde m.ram.phys i from hother i hi hia] at hne ⊢
      exact h.mapped.frame i hi hne
  · obtain ⟨k, hk, hmem⟩ := h.housed p a hp
    exact ⟨k, hk, hused k hmem⟩
  · refine ⟨c, hpid, ?_⟩
    by_contra hnot
    refine hne (hother i hi fun hia => hnot ?_)
    rw [hia]
    exact hcovers

theorem Windows.schedule (h : Windows m) (hs : Scheduled m.sched s) :
    Windows { m with sched := s } := by
  refine ⟨h.placed.scheduled hs, ⟨fun i hi hne => ?_, h.mapped.frame⟩, fun p a hp => ?_⟩
  · rw [show ({ m with sched := s } : Machine).sched.table = m.sched.table from hs.table]
    exact h.mapped.live i hi hne
  · exact h.housed p a (hs.table ▸ hp)

theorem Windows.step (h : Windows m) {a : Event} (st : Step m a m') : Windows m' ∧
    ∀ i < 1024, pde m'.ram.phys i ≠ pde m.ram.phys i → ∃ p, MadeFor m p a ∧ Covers p i := by
  cases st with
  | fork hfork => exact h.fork hfork
  | fault hin hfault => exact h.fault hin hfault
  | clock hsched => exact ⟨h.schedule (schedule_ok hsched), fun i _ hne => absurd rfl hne⟩
  | dispatch ht =>
    exact ⟨⟨h.placed.dispatch ht _, ⟨h.mapped.live, h.mapped.frame⟩, h.housed⟩,
      fun i _ hne => absurd rfl hne⟩

theorem Booted.windows (h : Booted m) : Windows m := by
  obtain ⟨s, hs⟩ := h.sched
  obtain ⟨htask, htable, hcurrent, hgdt⟩ := schedInit_ok hs
  have hzero : ∀ p x, m.sched.table p = some x → p = 0 ∧ x = .init := by
    intro p x hp
    rw [htable] at hp
    by_cases hp0 : p = 0
    · rw [hp0, Function.update_self] at hp
      exact ⟨hp0, (Option.some.inj hp).symm⟩
    · rw [Function.update_of_ne hp0] at hp
      cases hp
  have hslot : m.sched.table 0 = some .init := by rw [htable, Function.update_self]
  refine ⟨⟨⟨fun p x hp => ?_, 0, hcurrent ▸ hslot⟩, fun p x hp => ?_, fun p x hp i => ?_⟩,
    ⟨fun i hi hne => ?_, fun i hi hne => ?_⟩, fun p a hp => ?_⟩
  · obtain ⟨rfl, rfl⟩ := hzero p x hp
    rw [htask]
    rfl
  · obtain ⟨rfl, rfl⟩ := hzero p x hp
    exact hgdt
  · obtain ⟨rfl, rfl⟩ := hzero p x hp
    rw [htask]
    revert i
    decide
  · refine ⟨0, ?_, ?_⟩
    · rw [hslot]
      exact Option.some_ne_none _
    · rw [covers_iff]
      by_contra hbig
      refine hne (h.empty i hi ?_)
      simp only [Fin.val_zero] at hbig
      omega
  · by_cases hlow : i < 4
    · rw [h.tables i hlow]
      simp only [frameOf, pageSize]
      omega
    · exact absurd (h.empty i hi (not_lt.mp hlow)) hne
  · cases (hzero p _ hp).2

theorem Booted.reach {m₀ : Machine} (h : Booted m₀) (hreach : Reach Step m₀ m) : Windows m :=
  hreach.inv (fun _ _ _ hm st => (hm.step st).1) h.windows

/-! ## The assertions -/

/-- The assertions of add_task and share_vma. -/
def windowAsserts : List String :=
  ["task_table[task->pid] == NULL", "((from & 0x003fffff) == 0) && ((to & 0x003fffff) == 0)",
    "from > to ? (from - to >= size) : (to - from >= size)", "*to_pde == 0"]

theorem schedule_error {e : Halt} (h : schedule esp fuel s = .error e) {exp : String}
    (hexp : exp ∈ windowAsserts) : e ≠ .assertFailed exp := by
  rintro rfl
  induction fuel generalizing s with
  | zero => cases h
  | succ fuel ih =>
    rw [Proc.schedule, bind_eq_error] at h
    rcases h with h | ⟨r, -, h⟩
    · unfold Proc.pass at h
      cases hfind : findCurrent s with
      | none =>
        rw [hfind] at h
        obtain rfl := Halt.assertFailed.inj (Except.error.inj h)
        revert hexp
        decide
      | some cur =>
        rw [hfind, bind_eq_error] at h
        rcases h with h | ⟨p, -, h⟩
        · exact absurd h (search_error _ _ _)
        · cases hp : s.table p with
          | none =>
            rw [hp] at h
            obtain rfl := Halt.assertFailed.inj (Except.error.inj h)
            revert hexp
            decide
          | some t =>
            rw [hp] at h
            dsimp only at h
            split_ifs at h <;> cases h
    · cases r with
      | ran s₁ => cases h
      | again s₁ => exact ih h

theorem allocPage_error {mem : Mem} {e : Halt} (h : allocPage mem = .error e) {exp : String}
    (hexp : exp ∈ windowAsserts) : e ≠ .assertFailed exp := by
  rintro rfl
  rcases allocPages_error h with h | h
  · cases h
  · obtain rfl := Halt.assertFailed.inj h
    revert hexp
    decide

/-- Two windows are at least as far apart as share_vma asks. -/
theorem windowBase_apart {p q : Fin nrTask} (h : p ≠ q) :
    (windowBase p.val % 0x400000 = 0 ∧ windowBase q.val % 0x400000 = 0) ∧
      if windowBase p.val > windowBase q.val then windowBase p.val - windowBase q.val ≥ 640 * 1024
      else windowBase q.val - windowBase p.val ≥ 640 * 1024 := by
  have hne : p.val ≠ q.val := fun heq => h (Fin.ext heq)
  rw [windowBase_eq, windowBase_eq, windowSize]
  refine ⟨by omega, ?_⟩
  split_ifs <;> omega

/-- The entry for the window of a free pid is empty. -/
theorem Windows.empty (h : Windows m) (hfree : m.sched.table pid = none) :
    word m.ram.phys (pdeAddr (windowBase pid.val)) = 0 := by
  by_contra hne
  have hlt : pid.val < 64 := pid.isLt
  have hindex := pdeIndex_windowBase pid
  rw [pdeAddr_eq] at hne
  obtain ⟨p, hp, hcovers⟩ := h.mapped.live _ (by omega) hne
  rw [covers_iff] at hcovers
  have hpp : p = pid := Fin.ext (by omega)
  exact hp (hpp ▸ hfree)

theorem Windows.no_assert (h : Windows m) (esp fuel : Nat) {exp : String}
    (hexp : exp ∈ windowAsserts) : doFork m esp fuel ≠ .error (.assertFailed exp) := by
  intro herr
  unfold doFork at herr
  cases hpid : getPid m.sched with
  | none =>
    rw [hpid] at herr
    cases herr
  | some pid =>
    have hfree := getPid_some hpid
    rw [hpid, bind_eq_error] at herr
    rcases herr with herr | ⟨⟨page, mem⟩, halloc, herr⟩
    · exact allocPage_error herr hexp rfl
    have hfresh := h.housed.fresh halloc
    obtain ⟨c, hc⟩ := h.placed.tabled.current
    have hne : .page page ≠ m.sched.current := fun heq => hfresh c (heq ▸ hc)
    dsimp only at herr
    rw [bind_eq_error] at herr
    rcases herr with herr | ⟨s₁, hldt, herr⟩
    · simp only [setLdtDesc, bind_eq_error, access_eq_error, reduceCtorEq, and_false, pure_eq_ok,
        exists_false, or_self] at herr
    obtain ⟨hcurrent, hparent, hchild, -, htable, -, -⟩ := cloned_ok hne hldt
    have hcpid : (s₁.task (.page page)).pid = pid.val := by
      rw [hchild]
      rfl
    have hppid : (s₁.task s₁.current).pid = c.val := by
      rw [hcurrent, hparent]
      exact h.placed.tabled.pid c _ hc
    have hcp : c ≠ pid := fun heq => by
      rw [heq, hfree] at hc
      cases hc
    rw [hcpid, hppid, bind_eq_error] at herr
    rcases herr with herr | ⟨ram, -, herr⟩
    · obtain ⟨halign, hdist⟩ := windowBase_apart hcp
      have hempty := h.empty hfree
      simp only [shareVma, bind_eq_error, assert_eq_error, pure_eq_ok, reduceCtorEq, exists_false,
        and_false, or_false] at herr
      rcases herr with herr | ⟨_, -, herr⟩
      · exact herr.1 halign
      rcases herr with herr | ⟨_, -, herr⟩
      · exact herr.1 hdist
      rcases herr with herr | ⟨_, -, herr⟩
      · exact herr.1 hempty
      · exact allocPage_error herr hexp rfl
    rw [bind_eq_error] at herr
    rcases herr with herr | ⟨s₂, -, herr⟩
    · have hne₁ : .page page ≠ s₁.current := hcurrent ▸ hne
      have hpid' : ((setResume s₁ (.page page)).task (.page page)).pid = pid.val := by
        rw [setResume_self s₁ hne₁]
        exact hcpid
      have hslot : ((setResume s₁ (.page page)).table pid).isNone := by
        rw [show (setResume s₁ (.page page)).table = s₁.table from rfl, htable, hfree]
        rfl
      simp only [addTask, hpid', slotOf_val, ok_bind, hslot, assert_pos, pure_eq_ok,
        reduceCtorEq] at herr
    rw [bind_eq_error] at herr
    rcases herr with herr | ⟨s₃, -, herr⟩
    · exact schedule_error herr hexp rfl
    · cases herr

end Steps

/-! ## The windows of the tasks -/

/-- Distinct pids, descriptors in distinct slots, disjoint windows that the segments lead to, and
page directory entries in the windows of their tasks. -/
structure Apart (m : Machine) : Prop where
  pid : ∀ p t, m.sched.table p = some t → (m.sched.task t).pid = p.val
  distinct : ∀ p q t, m.sched.table p = some t → m.sched.table q = some t → p = q
  slot : ∀ p t, m.sched.table p = some t →
    gdtIdxFirstLdt + p.val < gdtSize ∧ m.sched.gdt (gdtIdxFirstLdt + p.val) = ldtDesc m.sched t
  base : ∀ p t, m.sched.table p = some t → ∀ i,
    (descBase ((m.sched.task t).thread.ldt i)).toNat = windowBase p.val
  window : ∀ p : Fin nrTask, windowBase p.val + windowSize ≤ 2 ^ 32
  disjoint : ∀ p q : Fin nrTask, p ≠ q → ∀ addr, InWindow p.val addr → ¬InWindow q.val addr
  dir : ∀ i < 1024, pde m.ram.phys i ≠ 0 → ∃ p, m.sched.table p ≠ none ∧ Covers p i

theorem windowBase_le (p : Fin nrTask) : windowBase p.val + windowSize ≤ 2 ^ 32 := by
  have hp : p.val < 64 := p.isLt
  rw [windowBase_eq, windowSize]
  omega

theorem Windows.apart {m : Machine} (h : Windows m) : Apart m := by
  refine ⟨h.placed.tabled.pid, fun p q t => h.placed.tabled.slot_eq, fun p t hp => ⟨?_, ?_⟩,
    fun p t hp i => ?_, windowBase_le, ?_, h.mapped.live⟩
  · have hlt : p.val < 64 := p.isLt
    simp only [gdtIdxFirstLdt, gdtSize]
    omega
  · exact h.placed.slot p t hp
  · rw [h.placed.base p t hp i, UInt32.toNat_ofNat']
    have hle := windowBase_le p
    exact Nat.mod_eq_of_lt ((Nat.lt_add_of_pos_right (by decide)).trans_le hle)
  · rintro p q hpq addr ⟨hlo, hhi⟩ ⟨hlo', hhi'⟩
    have hne : p.val ≠ q.val := fun heq => hpq (Fin.ext heq)
    rw [windowBase_eq, windowSize] at *
    omega

/-- In every reachable state the tasks are apart, a step makes directory entries only in the
window of the task it is for, do_fork never trips over the assertions of add_task and share_vma,
and without a free pid it leaves the table and the memory alone. -/
theorem task_windows {m₀ m : Machine} (hboot : Booted m₀) (hreach : Reach Step m₀ m) :
    Apart m ∧
      (∀ a m', Step m a m' → ∀ i < 1024, pde m'.ram.phys i ≠ pde m.ram.phys i →
        ∃ p, MadeFor m p a ∧ Covers p i) ∧
      (∀ esp fuel, ∀ exp ∈ windowAsserts, doFork m esp fuel ≠ .error (.assertFailed exp)) ∧
      (getPid m.sched = none → ∀ esp fuel, ∃ s,
        doFork m esp fuel = .ok ⟨s, m.ram⟩ ∧ s.table = m.sched.table) := by
  have hwin := hboot.reach hreach
  refine ⟨hwin.apart, fun a m' st => (hwin.step st).2, fun esp fuel exp hexp =>
    hwin.no_assert esp fuel hexp, fun hfull esp fuel => ?_⟩
  refine ⟨setTaskRetval m.sched m.sched.current (-1), ?_, rfl⟩
  unfold doFork
  rw [hfull]
  rfl

/-! ## A machine that has booted -/

/-- Tables that hold nothing yet. -/
def blankSched : Sched where
  task _ := initTaskStruct
  table _ := none
  current := .init
  gdt _ := initIdtDesc
  esp0 := .init
  ldtr := 0
  initTask := 0x8000

/-- Free frames, and the four entries of head.asm. -/
def bootRam : Ram where
  mem := ⟨0xffffff, fun _ => 0⟩
  phys a := if a < 16 then byteOf ((a / 4 + 1) * pageSize + 7) (a % 4) else 0

def bootMachine : Kernel Machine := do
  let s ← schedInit blankSched
  pure ⟨s, bootRam⟩

theorem bootMachine_booted {m : Machine} (h : bootMachine = .ok m) : Booted m := by
  simp only [bootMachine, bind_eq_ok, pure_eq_ok, Except.ok.injEq] at h
  obtain ⟨s, hs, rfl⟩ := h
  have hfew : ∀ i < 4, pde bootRam.phys i = (i + 1) * pageSize + 7 := by decide
  refine ⟨⟨blankSched, hs⟩, hfew, fun i _ hi => ?_⟩
  have hzero : pde bootRam.phys i = word (fun _ => 0) (4 * i) := by
    apply word_congr
    intro x hx _
    have hbig : ¬x < 16 := by omega
    exact if_neg hbig
  rw [hzero]
  rfl

theorem task_windows_fork : ∃ m₀ m, bootMachine = .ok m₀ ∧ Step m₀ (.fork 0 2) m ∧ Apart m ∧
    (m.sched.table 1).isSome := by
  have hrun : (match bootMachine with
      | .ok m₀ =>
        match doFork m₀ 0 2 with
        | .ok m => (m.sched.table 1).isSome
        | .error _ => false
      | .error _ => false) = true := by decide +kernel
  split at hrun
  swap
  · cases hrun
  rename_i m₀ hboot
  split at hrun
  swap
  · cases hrun
  rename_i m hfork
  exact ⟨m₀, m, hboot, .fork hfork,
    (task_windows (bootMachine_booted hboot) (.single ⟨_, .fork hfork⟩)).1, hrun⟩

end RxdOs.Kernel.TaskWindow
