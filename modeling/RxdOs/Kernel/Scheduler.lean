/- RxdOs/Kernel/Scheduler
   source: kernel/proc.c (schedule)
   digest: A task that is ready is always found, and over a round every task runs exactly as
   often as its priority says. -/

import Mathlib.Algebra.BigOperators.Group.Finset.Piecewise
import Mathlib.Data.Finset.Option
import RxdOs.Lib.Execution
import RxdOs.Kernel.Proc

set_option autoImplicit false
set_option relaxedAutoImplicit false

namespace RxdOs.Kernel.Scheduler

open RxdOs.Base.Assert RxdOs.Lib.Execution RxdOs.Kernel.Proc

/-- Slot `p` holds the task with pid `p`, and the current task has a slot. -/
structure Tabled (s : Sched) : Prop where
  pid : ∀ p t, s.table p = some t → (s.task t).pid = p.val
  current : ∃ p, s.table p = some s.current

/-- The tasks in the table. -/
@[irreducible] def tasks (s : Sched) : Finset TaskPtr := Finset.univ.biUnion fun p => (s.table p).toFinset

variable {s s' : Sched} {t x : TaskPtr} {esp : Nat}

theorem mem_tasks : t ∈ tasks s ↔ ∃ p, s.table p = some t := by
  simp [tasks, Option.mem_toFinset]

theorem tasks_congr (h : s'.table = s.table) : tasks s' = tasks s := by
  rw [tasks, tasks, h]

theorem mem_tasks_of_table (h : s'.table = s.table) (ht : t ∈ tasks s) : t ∈ tasks s' :=
  (tasks_congr h).symm ▸ ht

theorem Tabled.slot_eq (h : Tabled s) {p q : Fin nrTask} (hp : s.table p = some t)
    (hq : s.table q = some t) : p = q := by
  have hpid : ((p : Nat) : Int) = (q : Nat) := (h.pid p t hp).symm.trans (h.pid q t hq)
  exact Fin.ext (Int.ofNat.inj hpid)

theorem findCurrent_of_tabled (h : Tabled s) {c : Fin nrTask} (hc : s.table c = some s.current) :
    findCurrent s = some c := by
  cases hfind : findCurrent s with
  | none =>
    have hno := List.find?_eq_none.mp hfind c (List.mem_finRange c)
    simp [hc] at hno
  | some q =>
    have hq := List.find?_some hfind
    rw [h.slot_eq (of_decide_eq_true hq) hc]

/-! ## The search -/

theorem ready_iff {p : Fin nrTask} :
    ready s p = true ↔ ∃ t, s.table p = some t ∧ 0 < (s.task t).timespan := by
  rw [ready]
  cases s.table p with
  | none => simp
  | some t => simp

/-- The rounds the search takes from `p` until it is back at slot `c`. -/
def distance (c p : Fin nrTask) : Nat := (c.val + nrTask - p.val) % nrTask

theorem distance_succ {c p : Fin nrTask} (h : p ≠ c) : distance c p = distance c (p + 1) + 1 := by
  have hne : p.val ≠ c.val := fun heq => h (Fin.ext heq)
  have hp := p.isLt
  have hc := c.isLt
  simp only [distance, nrTask, Fin.val_add, Fin.val_one] at *
  omega

theorem distance_lt (c p : Fin nrTask) : distance c p < nrTask := Nat.mod_lt _ (by decide)

theorem distance_self (c : Fin nrTask) : distance c c = 0 := by
  have hc := c.isLt
  simp only [distance, nrTask] at *
  omega

theorem distance_eq_zero {c p : Fin nrTask} (h : distance c p = 0) : p = c := by
  by_contra hne
  have hsucc := distance_succ hne
  omega

/-- The slot after `c` is as far from `c` as a slot can be. -/
theorem distance_next (c : Fin nrTask) : distance c (c + 1) = nrTask - 1 := by
  have hc := c.isLt
  simp only [distance, nrTask, Fin.val_add, Fin.val_one] at *
  omega

/-- The search stops at a ready slot, or at the slot of the current task when no slot it
passed is ready. -/
theorem search_spec (h : Tabled s) {c : Fin nrTask} (hc : s.table c = some s.current)
    (fuel : Nat) (p : Fin nrTask) (hne : p ≠ c) (hfuel : distance c p ≤ fuel) :
    ∃ q, search s fuel p = .ok q ∧ (ready s q = true ∨
      q = c ∧ ∀ r, r ≠ c → distance c r ≤ distance c p → ready s r = false) := by
  induction fuel generalizing p with
  | zero => exact absurd (distance_eq_zero (Nat.le_zero.mp hfuel)) hne
  | succ fuel ih =>
    have hsucc := distance_succ hne
    rw [search]
    by_cases hready : ready s p = true
    · exact ⟨p, by rw [if_pos hready]; rfl, .inl hready⟩
    have hnot : ready s p = false := by simpa using hready
    rw [if_neg hready]
    by_cases hback : s.table (p + 1) = some s.current
    · have hend := h.slot_eq hback hc
      refine ⟨p + 1, by rw [if_pos hback]; rfl, .inr ⟨hend, fun r hr hle => ?_⟩⟩
      -- only `p` itself lies between
      have hone : distance c p = 1 := by
        rw [hsucc, hend, distance_self]
      have hr1 : distance c r = 1 := by
        have hr0 : distance c r ≠ 0 := fun h0 => hr (distance_eq_zero h0)
        omega
      have hrp : r + 1 = p + 1 := by
        rw [hend]
        refine distance_eq_zero ?_
        have hrsucc := distance_succ hr
        omega
      rw [add_right_cancel hrp]
      exact hnot
    · rw [if_neg hback]
      have hne' : p + 1 ≠ c := fun heq => hback (heq ▸ hc)
      obtain ⟨q, hq, hcases⟩ := ih (p + 1) hne' (by omega)
      refine ⟨q, hq, hcases.imp_right fun hall => ⟨hall.1, fun r hr hle => ?_⟩⟩
      by_cases heq : distance c r = distance c p
      · have hrp : r = p := by
          have hrv := r.isLt
          have hpv := p.isLt
          have hcv := c.isLt
          simp only [distance, nrTask] at *
          exact Fin.ext (by omega)
        rw [hrp]
        exact hnot
      · exact hall.2 r hr (by omega)

/-- The search itself asserts nothing. -/
theorem search_error (fuel : Nat) (p : Fin nrTask) (exp : String) :
    search s fuel p ≠ .error (.assertFailed exp) := by
  induction fuel generalizing p with
  | zero => exact fun h => nomatch h
  | succ fuel ih =>
    rw [search]
    split_ifs
    · exact fun h => nomatch h
    · exact fun h => nomatch h
    · exact ih (p + 1)

/-- One activation runs a task of the table that has time left, or resets when none has. -/
theorem pass_spec (h : Tabled s) (esp : Nat) :
    (∃ t ∈ tasks s, 0 < (s.task t).timespan ∧ Proc.pass s esp = .ok (.ran (runTask s t esp))) ∨
      (∀ t ∈ tasks s, (s.task t).timespan ≤ 0) ∧ Proc.pass s esp = .ok (.again (resetAll s)) := by
  obtain ⟨c, hc⟩ := h.current
  have hne : c + 1 ≠ c := fun heq => by
    have hnext := distance_next c
    rw [heq, distance_self] at hnext
    cases hnext
  obtain ⟨q, hq, hcases⟩ := search_spec h hc nrTask (c + 1) hne (distance_lt c _).le
  have hpass : ∀ t, s.table q = some t → Proc.pass s esp =
      if (s.task t).timespan > 0 then .ok (.ran (runTask s t esp))
      else .ok (.again (resetAll s)) := by
    intro t ht
    rw [Proc.pass, findCurrent_of_tabled h hc]
    show (search s nrTask (c + 1) >>= _) = _
    rw [hq, ok_bind, ht]
    rfl
  by_cases hready : ready s q = true
  · obtain ⟨t, ht, hpos⟩ := ready_iff.mp hready
    refine .inl ⟨t, mem_tasks.mpr ⟨q, ht⟩, hpos, ?_⟩
    rw [hpass t ht]
    exact if_pos hpos
  obtain ⟨rfl, hall⟩ := hcases.resolve_left hready
  have hspent : ∀ p t, s.table p = some t → (s.task t).timespan ≤ 0 := by
    intro p t hp
    have hp' : ready s p = false := by
      by_cases hpq : p = q
      · rw [hpq]
        simpa using hready
      · refine hall p hpq ?_
        rw [distance_next]
        exact Nat.le_sub_one_of_lt (distance_lt q p)
    by_contra hpos
    rw [ready_iff.mpr ⟨t, hp, not_le.mp hpos⟩] at hp'
    cases hp'
  refine .inr ⟨fun t ht => ?_, ?_⟩
  · obtain ⟨p, hp⟩ := mem_tasks.mp ht
    exact hspent p t hp
  · rw [hpass _ hc]
    exact if_neg (not_lt.mpr (hspent q s.current hc))

/-! ## What an activation leaves -/

theorem runTask_self (h : t = s.current) : runTask s t esp =
    s.setTask t { s.task t with timespan := (s.task t).timespan - 1 } :=
  if_neg (not_not.mpr h)

theorem runTask_of_ne (h : t ≠ s.current) : runTask s t esp =
    switchTo (s.setTask t { s.task t with timespan := (s.task t).timespan - 1 }) s.current t esp :=
  if_pos h

@[simp] theorem runTask_table : (runTask s t esp).table = s.table := by
  by_cases h : t = s.current
  · rw [runTask_self h]
    rfl
  · rw [runTask_of_ne h]
    rfl

@[simp] theorem runTask_current : (runTask s t esp).current = t := by
  by_cases h : t = s.current
  · rw [runTask_self h]
    exact h.symm
  · rw [runTask_of_ne h]
    rfl

theorem runTask_task (x : TaskPtr) : ((runTask s t esp).task x).pid = (s.task x).pid ∧
    ((runTask s t esp).task x).priority = (s.task x).priority ∧
    ((runTask s t esp).task x).timespan =
      (s.task x).timespan - if x = t then 1 else 0 := by
  have htask : ∀ x, ((s.setTask t { s.task t with timespan := (s.task t).timespan - 1 }).task x) =
      { s.task x with timespan := (s.task x).timespan - if x = t then 1 else 0 } := by
    intro x
    by_cases hx : x = t
    · rw [hx, Sched.setTask_self, if_pos rfl]
    · rw [Sched.setTask_of_ne s _ hx, if_neg hx, sub_zero]
  by_cases h : t = s.current
  · rw [runTask_self h, htask]
    exact ⟨rfl, rfl, rfl⟩
  · rw [runTask_of_ne h]
    by_cases hx : x = s.current
    · rw [hx, switchTo_self, htask]
      exact ⟨rfl, rfl, rfl⟩
    · rw [switchTo_of_ne _ _ _ hx, htask]
      exact ⟨rfl, rfl, rfl⟩

theorem resetAll_task_eq (x : TaskPtr) : (resetAll s).task x =
    if ∃ p, s.table p = some x then { s.task x with timespan := (s.task x).priority }
    else s.task x := by
  rw [resetAll]

@[simp] theorem resetAll_table : (resetAll s).table = s.table := by rw [resetAll]

theorem resetAll_task (x : TaskPtr) : ((resetAll s).task x).pid = (s.task x).pid ∧
    ((resetAll s).task x).priority = (s.task x).priority ∧
    (x ∈ tasks s → ((resetAll s).task x).timespan = (s.task x).priority) := by
  by_cases h : ∃ p, s.table p = some x
  · rw [resetAll_task_eq, if_pos h]
    exact ⟨rfl, rfl, fun _ => rfl⟩
  · rw [resetAll_task_eq, if_neg h]
    exact ⟨rfl, rfl, fun hmem => absurd (mem_tasks.mp hmem) h⟩

theorem Tabled.runTask (h : Tabled s) (ht : t ∈ tasks s) (esp : Nat) :
    Tabled (runTask s t esp) := by
  refine ⟨fun p x hp => ?_, ?_⟩
  · rw [(runTask_task x).1]
    exact h.pid p x (runTask_table ▸ hp)
  · rw [runTask_table, runTask_current]
    exact mem_tasks.mp ht

theorem Tabled.resetAll (h : Tabled s) : Tabled (resetAll s) := by
  refine ⟨fun p x hp => ?_, h.current⟩
  rw [(resetAll_task x).1]
  exact h.pid p x hp

/-! ## Rounds -/

/-- The calls of schedule in one round. -/
def period (s : Sched) : Int := ∑ t ∈ tasks s, (s.task t).priority

/-- The calls that are left before the next reset. -/
def left (s : Sched) : Int := ∑ t ∈ tasks s, (s.task t).timespan

/-- One call of schedule; nothing bounds how often it calls itself. -/
def Call (s : Sched) (esp : Nat) (s' : Sched) : Prop := ∃ fuel, schedule esp fuel s = .ok s'

/-- An activation that picks a task of the table with time left and takes 1 of that time. -/
structure Turn (s : Sched) (esp : Nat) (s' : Sched) : Prop where
  ran : Proc.pass s esp = .ok (.ran s')
  mem : s'.current ∈ tasks s
  pos : 0 < (s.task s'.current).timespan
  timespan : ∀ x, (s'.task x).timespan =
    (s.task x).timespan - if x = s'.current then 1 else 0
  priority : ∀ x, (s'.task x).priority = (s.task x).priority
  table : s'.table = s.table

/-- An activation that finds no time left, gives every task its priority, and calls schedule
once more, which picks a task. -/
structure Renewal (s : Sched) (esp : Nat) (s' : Sched) : Prop where
  spent : ∀ x ∈ tasks s, (s.task x).timespan = 0
  again : Proc.pass s esp = .ok (.again (resetAll s))
  renewed : ∀ x ∈ tasks s, ((resetAll s).task x).timespan = (s.task x).priority
  turn : Turn (resetAll s) esp s'

/-- What a call may do. -/
def Fair (s : Sched) (esp : Nat) (s' : Sched) : Prop := Turn s esp s' ∨ Renewal s esp s'

/-- The tasks the calls of a run have chosen. -/
def chosen (tr : List (Nat × Sched)) : List TaskPtr := tr.map fun e => e.2.current

/-- Every priority is positive, and no time is negative. -/
structure Timed (s : Sched) : Prop where
  tabled : Tabled s
  priority : ∀ t ∈ tasks s, 1 ≤ (s.task t).priority
  timespan : ∀ t ∈ tasks s, 0 ≤ (s.task t).timespan

theorem Timed.turn (h : Timed s) (hpos : 0 < left s) (esp : Nat) :
    ∃ s', Turn s esp s' ∧ Tabled s' := by
  rcases pass_spec h.tabled esp with ⟨t, ht, htime, hpass⟩ | ⟨hspent, -⟩
  · refine ⟨runTask s t esp, ⟨hpass, ?_, ?_, ?_, ?_, runTask_table⟩, h.tabled.runTask ht esp⟩
    · rwa [runTask_current]
    · rwa [runTask_current]
    · intro x
      rw [runTask_current]
      exact (runTask_task x).2.2
    · exact fun x => (runTask_task x).2.1
  · exact absurd (Finset.sum_nonpos hspent) (not_le.mpr hpos)

/-- A turn takes 1 off what is left of the round. -/
theorem Turn.left (h : Turn s esp s') : left s' = left s - 1 := by
  have hsum : Scheduler.left s' = ∑ x ∈ tasks s,
      ((s.task x).timespan - if x = s'.current then 1 else 0) := by
    rw [Scheduler.left, tasks_congr h.table]
    exact Finset.sum_congr rfl fun x _ => h.timespan x
  rw [hsum, Finset.sum_sub_distrib, Finset.sum_ite_eq', if_pos h.mem]
  rfl

theorem Turn.timed (h : Turn s esp s') (hs : Timed s) (htab : Tabled s') : Timed s' := by
  refine ⟨htab, fun x hx => ?_, fun x hx => ?_⟩
  · rw [h.priority]
    exact hs.priority x (tasks_congr h.table ▸ hx)
  · rw [h.timespan]
    have hmem : x ∈ tasks s := tasks_congr h.table ▸ hx
    have hnonneg := hs.timespan x hmem
    split_ifs with heq
    · have hpos := h.pos
      rw [← heq] at hpos
      omega
    · omega

theorem Timed.resetAll (h : Timed s) : Timed (resetAll s) := by
  have hmem : tasks (Proc.resetAll s) = tasks s := tasks_congr resetAll_table
  refine ⟨h.tabled.resetAll, fun x hx => ?_, fun x hx => ?_⟩
  · rw [(resetAll_task x).2.1]
    exact h.priority x (hmem ▸ hx)
  · rw [hmem] at hx
    rw [(resetAll_task x).2.2 hx]
    exact zero_le_one.trans (h.priority x hx)

theorem left_resetAll : left (resetAll s) = period s := by
  rw [left, period, tasks_congr resetAll_table]
  exact Finset.sum_congr rfl fun x hx => (resetAll_task x).2.2 hx

theorem Timed.period_pos (h : Timed s) : 0 < period s := by
  obtain ⟨c, hc⟩ := h.tabled.current
  exact Finset.sum_pos (fun t ht => zero_lt_one.trans_le (h.priority t ht))
    ⟨s.current, mem_tasks.mpr ⟨c, hc⟩⟩

theorem Timed.left_nonneg (h : Timed s) : 0 ≤ left s := Finset.sum_nonneg h.timespan

theorem Timed.spent (h : Timed s) (hleft : left s = 0) : ∀ t ∈ tasks s, (s.task t).timespan = 0 :=
  (Finset.sum_eq_zero_iff_of_nonneg h.timespan).mp hleft

theorem Timed.renewal (h : Timed s) (hleft : left s = 0) (esp : Nat) :
    ∃ s', Renewal s esp s' ∧ Tabled s' := by
  have hspent := h.spent hleft
  obtain ⟨s', hturn, htab⟩ := h.resetAll.turn (left_resetAll ▸ h.period_pos) esp
  refine ⟨s', ⟨hspent, ?_, fun x hx => (resetAll_task x).2.2 hx, hturn⟩, htab⟩
  rcases pass_spec h.tabled esp with ⟨t, ht, hpos, -⟩ | ⟨-, hagain⟩
  · rw [hspent t ht] at hpos
    cases hpos
  · exact hagain

theorem Turn.schedule (h : Turn s esp s') (fuel : Nat) : schedule esp (fuel + 1) s = .ok s' := by
  rw [Proc.schedule, h.ran]
  rfl

theorem Renewal.schedule (h : Renewal s esp s') (fuel : Nat) :
    schedule esp (fuel + 2) s = .ok s' := by
  rw [Proc.schedule, h.again]
  exact h.turn.schedule fuel

/-- With time left a call is a turn; without, it renews the round.  It always returns. -/
theorem Timed.call (h : Timed s) (esp : Nat) : ∃ s', schedule esp 2 s = .ok s' ∧ Timed s' ∧
    (0 < left s ∧ Turn s esp s' ∨ left s = 0 ∧ Renewal s esp s') := by
  rcases h.left_nonneg.lt_or_eq with hpos | hzero
  · obtain ⟨s', hturn, htab⟩ := h.turn hpos esp
    exact ⟨s', hturn.schedule 1, hturn.timed h htab, .inl ⟨hpos, hturn⟩⟩
  · obtain ⟨s', hnew, htab⟩ := h.renewal hzero.symm esp
    exact ⟨s', hnew.schedule 0, hnew.turn.timed h.resetAll htab, .inr ⟨hzero.symm, hnew⟩⟩

/-- More activations change nothing once schedule returns. -/
theorem schedule_mono {fuel : Nat} (h : schedule esp fuel s = .ok s') (more : Nat) :
    schedule esp (fuel + more) s = .ok s' := by
  induction fuel generalizing s with
  | zero => cases h
  | succ fuel ih =>
    rw [Nat.succ_add]
    simp only [Proc.schedule, bind_eq_ok] at h ⊢
    obtain ⟨r, hpass, h⟩ := h
    refine ⟨r, hpass, ?_⟩
    cases r with
    | ran s₁ => exact h
    | again s₁ => exact ih h

theorem Call.unique {s₁ s₂ : Sched} (h₁ : Call s esp s₁) (h₂ : Call s esp s₂) : s₁ = s₂ := by
  obtain ⟨n, h₁⟩ := h₁
  obtain ⟨m, h₂⟩ := h₂
  have h₁' := schedule_mono h₁ m
  rw [Nat.add_comm, schedule_mono h₂ n] at h₁'
  exact (Except.ok.inj h₁').symm

theorem Timed.of_call (h : Timed s) (hcall : Call s esp s') : Timed s' ∧
    (0 < left s ∧ Turn s esp s' ∨ left s = 0 ∧ Renewal s esp s') := by
  obtain ⟨s₁, hs₁, htimed, hcases⟩ := h.call esp
  obtain rfl : s₁ = s' := Call.unique ⟨2, hs₁⟩ hcall
  exact ⟨htimed, hcases⟩

/-- Whatever the call did, it spent 1 of what the task it chose had, of this round or the next. -/
theorem fair_priority (h : Fair s esp s') : tasks s' = tasks s ∧ s'.current ∈ tasks s ∧
    ∀ x, (s'.task x).priority = (s.task x).priority := by
  rcases h with hturn | hnew
  · exact ⟨tasks_congr hturn.table, hturn.mem, hturn.priority⟩
  · refine ⟨?_, ?_, fun x => ?_⟩
    · exact tasks_congr (hnew.turn.table.trans resetAll_table)
    · have hmem := hnew.turn.mem
      rwa [tasks_congr resetAll_table] at hmem
    · rw [hnew.turn.priority, (resetAll_task x).2.1]

/-! ## Runs -/

/-- After the calls that chose `l`: round `k + 1` is under way, and each task has had what it
lacks of `k + 1` times its priority. -/
structure Ledger (s₀ s : Sched) (l : List TaskPtr) : Prop where
  timed : Timed s
  tasks : tasks s = tasks s₀
  priority : ∀ x, (s.task x).priority = (s₀.task x).priority
  round : ∃ k : Nat, (l = [] → k = 0) ∧ (l ≠ [] → left s < period s₀) ∧
    left s + l.length = (k + 1) * period s₀ ∧
    ∀ t ∈ Scheduler.tasks s₀, (s.task t).timespan + l.count t = (k + 1) * (s₀.task t).priority

variable {s₀ : Sched}

theorem Ledger.period_eq {l : List TaskPtr} (h : Ledger s₀ s l) : period s = period s₀ := by
  rw [period, period, h.tasks]
  exact Finset.sum_congr rfl fun x _ => h.priority x

theorem Ledger.step {l : List TaskPtr} (h : Ledger s₀ s l) (hcall : Call s esp s') :
    Ledger s₀ s' (l ++ [s'.current]) := by
  obtain ⟨htimed, hcases⟩ := h.timed.of_call hcall
  have hfair : Fair s esp s' := hcases.imp And.right And.right
  obtain ⟨htasks, hmem, hprio⟩ := fair_priority hfair
  have hperiod : left s' < period s₀ ∧ ∃ k : Nat,
      left s' + (l.length + 1) = (k + 1) * period s₀ ∧
      ∀ t ∈ Scheduler.tasks s₀, (s'.task t).timespan + (l.count t + if t = s'.current then 1 else 0) =
        (k + 1) * (s₀.task t).priority := by
    obtain ⟨k, hk, hlt, hsum, hcount⟩ := h.round
    rcases hcases with ⟨hpos, hturn⟩ | ⟨hzero, hnew⟩
    · have hleft := hturn.left
      refine ⟨?_, k, by omega, fun t ht => ?_⟩
      · by_cases hl : l = []
        · rw [hl, hk hl, List.length_nil] at hsum
          push_cast at hsum
          omega
        · have hbelow := hlt hl
          omega
      · rw [hturn.timespan, ← hcount t ht]
        omega
    · have hleft := hnew.turn.left
      rw [left_resetAll, h.period_eq] at hleft
      refine ⟨by omega, k + 1, ?_, fun t ht => ?_⟩
      · push_cast
        rw [add_one_mul, ← hsum]
        omega
      · have ht' : t ∈ Scheduler.tasks s := h.tasks ▸ ht
        have hspan := hcount t ht
        rw [hnew.spent t ht'] at hspan
        rw [hnew.turn.timespan, hnew.renewed t ht', h.priority]
        push_cast
        rw [add_one_mul (k + 1 : Int), ← hspan]
        omega
  obtain ⟨hlt, k, hsum, hcount⟩ := hperiod
  refine ⟨htimed, htasks.trans h.tasks, fun x => (hprio x).trans (h.priority x), k, ?_, ?_, ?_, ?_⟩
  · intro hnil
    exact absurd hnil (by simp)
  · exact fun _ => hlt
  · rw [List.length_append, List.length_singleton]
    exact_mod_cast hsum
  · intro t ht
    rw [List.count_append, List.count_singleton, ← hcount t ht]
    by_cases heq : t = s'.current
    · simp [heq]
    · have hne : ¬s'.current = t := fun h' => heq h'.symm
      simp [heq, hne]

theorem Ledger.run {l : List TaskPtr} (h : Ledger s₀ s l) {tr : List (Nat × Sched)}
    (hrun : Exec Call s tr) : Ledger s₀ (last s tr) (l ++ chosen tr) := by
  induction hrun generalizing l with
  | nil s => simpa [chosen] using h
  | @cons s s' esp tr hcall _ ih =>
    have hnext := ih (h.step hcall)
    rw [List.append_assoc] at hnext
    exact hnext

/-- From full timespans, each call is fair; timespans stay non-negative; after `k` rounds every
task was chosen `k` times its priority; schedule always returns, and it calls itself exactly
when a round is over. -/
theorem schedule_shares (htab : Tabled s₀) (hprio : ∀ t ∈ tasks s₀, 1 ≤ (s₀.task t).priority)
    (hfull : ∀ t ∈ tasks s₀, (s₀.task t).timespan = (s₀.task t).priority)
    {tr : List (Nat × Sched)} (hrun : Exec Call s₀ tr) :
    Stepwise Fair s₀ tr ∧
      Always (fun s => tasks s = tasks s₀ ∧ ∀ t ∈ tasks s₀, 0 ≤ (s.task t).timespan) s₀ tr ∧
      (∀ k : Nat, tr.length = k * period s₀ → ∀ t ∈ tasks s₀,
        (chosen tr).count t = k * (s₀.task t).priority) ∧
      ∀ esp, (∃ s', Call (last s₀ tr) esp s') ∧
        ((∃ s', Renewal (last s₀ tr) esp s') ↔ tr ≠ [] ∧ period s₀ ∣ tr.length) := by
  have htimed : Timed s₀ := ⟨htab, hprio, fun t ht => hfull t ht ▸ zero_le_one.trans (hprio t ht)⟩
  have hstart : Ledger s₀ s₀ [] := by
    have hleft : left s₀ = period s₀ := Finset.sum_congr rfl hfull
    refine ⟨htimed, rfl, fun _ => rfl, 0, fun _ => rfl, fun hne => absurd rfl hne, ?_, ?_⟩
    · simpa using hleft
    · intro t ht
      simpa using hfull t ht
  have hledger := hstart.run hrun
  rw [List.nil_append] at hledger
  have hlen : (chosen tr).length = tr.length := List.length_map ..
  have hnil : chosen tr = [] ↔ tr = [] := List.map_eq_nil_iff
  obtain ⟨k, hk, hlt, hsum, hcount⟩ := hledger.round
  rw [hlen] at hsum
  have hpos := htimed.period_pos
  have hnonneg := hledger.timed.left_nonneg
  -- what is left of the round is 0 exactly at its end
  have hend : left (last s₀ tr) = 0 ↔ tr ≠ [] ∧ period s₀ ∣ tr.length := by
    constructor
    · intro hzero
      rw [hzero, zero_add] at hsum
      refine ⟨fun htr => ?_, Dvd.intro_left _ hsum.symm⟩
      rw [htr, hk (hnil.mpr htr)] at hsum
      simp at hsum
      omega
    · rintro ⟨htr, hdvd⟩
      have hbelow := hlt (fun h => htr (hnil.mp h))
      have hleft : period s₀ ∣ left (last s₀ tr) := by
        refine (Int.dvd_add_left hdvd).mp ?_
        rw [hsum]
        exact Dvd.intro_left _ rfl
      exact Int.eq_zero_of_dvd_of_nonneg_of_lt hnonneg hbelow hleft
  refine ⟨?_, ?_, ?_, ?_⟩
  · exact hrun.stepwise (fun _ _ _ h _ hcall => (h.of_call hcall).2.imp And.right And.right)
      (hrun.always (fun _ _ _ h hcall => (h.of_call hcall).1) htimed)
  · have hall : Always (fun s => Timed s ∧ tasks s = tasks s₀) s₀ tr := hrun.always
      (fun _ _ _ h hcall => ⟨(h.1.of_call hcall).1,
        (fair_priority ((h.1.of_call hcall).2.imp And.right And.right)).1.trans h.2⟩)
      ⟨htimed, rfl⟩
    exact hall.imp fun s h => ⟨h.2, fun t ht => h.1.timespan t (h.2 ▸ ht)⟩
  · intro m hm t ht
    rw [hm] at hsum
    by_cases htr : tr = []
    · subst htr
      have hm0 : (m : Int) = 0 := by
        rcases mul_eq_zero.mp (hm.symm.trans (by simp)) with h | h
        · exact h
        · omega
      simp [chosen, hm0]
    · have hzero := hend.mpr ⟨htr, Dvd.intro_left _ hm.symm⟩
      rw [hzero, zero_add] at hsum
      have hmk : (m : Int) = k + 1 := mul_right_cancel₀ hpos.ne' hsum
      have hspan := hledger.timed.spent hzero t (hledger.tasks ▸ ht)
      rw [hmk, ← hcount t ht, hspan, zero_add]
  · intro esp
    obtain ⟨s', hs', -, hcases⟩ := hledger.timed.call esp
    refine ⟨⟨s', 2, hs'⟩, ?_⟩
    rw [← hend]
    constructor
    · rintro ⟨s₁, hnew⟩
      exact Finset.sum_eq_zero hnew.spent
    · intro hzero
      obtain ⟨s₁, hnew, -⟩ := hledger.timed.renewal hzero esp
      exact ⟨s₁, hnew⟩

/-! ## Two tasks -/

/-- init with priority 2 and a task with priority 1 in slot 5. -/
def twoTasks : Sched where
  task
    | .init => { initTaskStruct with priority := 2, timespan := 2 }
    | .page _ => { initTaskStruct with pid := 5, priority := 1, timespan := 1 }
  table p := if p = 0 then some .init else if p = 5 then some (.page 0x100000) else none
  current := .init
  gdt _ := initIdtDesc
  esp0 := .init
  ldtr := gdtIdxFirstLdt
  initTask := 0x8000

theorem mem_twoTasks : t ∈ tasks twoTasks ↔ t = .init ∨ t = .page 0x100000 := by
  rw [mem_tasks]
  constructor
  · rintro ⟨p, hp⟩
    simp only [twoTasks] at hp
    split_ifs at hp
    · exact .inl (Option.some.inj hp).symm
    · exact .inr (Option.some.inj hp).symm
  · rintro (rfl | rfl)
    · exact ⟨0, rfl⟩
    · exact ⟨5, rfl⟩

theorem twoTasks_tabled : Tabled twoTasks := by
  refine ⟨fun p t hp => ?_, 0, rfl⟩
  simp only [twoTasks] at hp
  split_ifs at hp with h0 h5
  · obtain rfl := Option.some.inj hp
    rw [h0]
    rfl
  · obtain rfl := Option.some.inj hp
    rw [h5]
    rfl

/-- From a timed state there is a run of any length. -/
theorem Timed.run (h : Timed s) (n : Nat) : ∃ tr, Exec Call s tr ∧ tr.length = n := by
  induction n generalizing s with
  | zero => exact ⟨[], .nil s, rfl⟩
  | succ n ih =>
    obtain ⟨s', hs', htimed, -⟩ := h.call 0
    obtain ⟨tr, hrun, hlen⟩ := ih htimed
    exact ⟨(0, s') :: tr, .cons ⟨2, hs'⟩ hrun, by rw [List.length_cons, hlen]⟩

theorem schedule_shares_twoTasks : ∃ tr, Exec Call twoTasks tr ∧ tr.length = 3 ∧
    (chosen tr).count .init = 2 ∧ (chosen tr).count (.page 0x100000) = 1 := by
  have hprio : ∀ t ∈ tasks twoTasks, 1 ≤ (twoTasks.task t).priority := by
    intro t ht
    rcases mem_twoTasks.mp ht with rfl | rfl <;> decide
  have hfull : ∀ t ∈ tasks twoTasks, (twoTasks.task t).timespan = (twoTasks.task t).priority := by
    intro t ht
    rcases mem_twoTasks.mp ht with rfl | rfl <;> rfl
  have htimed : Timed twoTasks :=
    ⟨twoTasks_tabled, hprio, fun t ht => hfull t ht ▸ zero_le_one.trans (hprio t ht)⟩
  have hset : tasks twoTasks = {.init, .page 0x100000} := by
    ext t
    rw [mem_twoTasks, Finset.mem_insert, Finset.mem_singleton]
  have hperiod : period twoTasks = 3 := by
    rw [period, hset, Finset.sum_pair (by decide)]
    rfl
  obtain ⟨tr, hrun, hlen⟩ := htimed.run 3
  have hshares := (schedule_shares twoTasks_tabled hprio hfull hrun).2.2.1 1 (by rw [hlen, hperiod]; rfl)
  have hinit : (twoTasks.task .init).priority = 2 := rfl
  have hpage : (twoTasks.task (.page 0x100000)).priority = 1 := rfl
  refine ⟨tr, hrun, hlen, ?_, ?_⟩
  · have hcount := hshares .init (mem_twoTasks.mpr (.inl rfl))
    rw [hinit] at hcount
    omega
  · have hcount := hshares (.page 0x100000) (mem_twoTasks.mpr (.inr rfl))
    rw [hpage] at hcount
    omega

end RxdOs.Kernel.Scheduler
