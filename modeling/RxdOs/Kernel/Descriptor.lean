/- RxdOs/Kernel/Descriptor
   source: kernel/head.c (set_desc_base, set_desc_limit), kernel/syscall_impl.c (do_fork)
   digest: The three fields of a segment descriptor, what each setter does to them, and the
   segments a forked task gets. -/

import RxdOs.Kernel.TaskWindow

set_option autoImplicit false
set_option relaxedAutoImplicit false

namespace RxdOs.Kernel.Descriptor

open RxdOs.Base.Assert RxdOs.Lib.Execution RxdOs.Mm.Memory RxdOs.Kernel.Proc
  RxdOs.Kernel.Scheduler RxdOs.Kernel.Fork RxdOs.Kernel.TaskWindow

/-- The 20-bit limit the processor finds in a descriptor. -/
def descLimit (d : Desc) : UInt32 := (d.low &&& 0xffff) ||| (d.high &&& 0xf0000)

/-- The type and the flags, in their places in the upper word. -/
def descAttr (d : Desc) : UInt32 := d.high &&& 0x00f0ff00

/-! ## Bits -/

section Bits

variable {w : Nat}

/-- Clearing some bits changes nothing exactly where they are clear already. -/
theorem clear_eq_self_iff (x m : BitVec w) : x &&& ~~~m = x ↔ x &&& m = 0#w := by
  constructor
  · intro h
    rw [← h, BitVec.and_assoc, BitVec.and_comm (~~~m) m, BitVec.and_not_self]
    exact BitVec.and_zero
  · intro h
    have hsplit : x = (x &&& m) ||| (x &&& ~~~m) := by
      ext i hi
      simp only [BitVec.getElem_or, BitVec.getElem_and, BitVec.getElem_not]
      cases x[i] <;> cases m[i] <;> rfl
    rw [h, BitVec.zero_or] at hsplit
    exact hsplit.symm

variable (low high base limit : BitVec 32)

/-- The words set_desc_base leaves. -/
def baseLow : BitVec 32 := (low &&& 0xff#32) ||| (base <<< 16)

def baseHigh : BitVec 32 :=
  (high &&& 0x00ffff00#32) ||| ((base >>> 16 &&& 0xff#32) ||| (base &&& 0xff000000#32))

/-- The words set_desc_limit leaves. -/
def limitLow : BitVec 32 := (low &&& 0xffff0000#32) ||| (limit &&& 0xfffff#32 &&& 0xffff#32)

def limitHigh : BitVec 32 := (high &&& 0xfff0ffff#32) ||| (limit &&& 0xfffff#32 &&& 0xf0000#32)

/-- The base moves the upper byte of the lower half of the limit out. -/
theorem limitBits_base :
    (baseLow low base &&& 0xffff#32) ||| (baseHigh high base &&& 0xf0000#32) =
      ((low &&& 0xffff#32) ||| (high &&& 0xf0000#32)) &&& ~~~0xff00#32 := by
  ext i hi
  simp only [baseLow, baseHigh, BitVec.getElem_or, BitVec.getElem_and, BitVec.getElem_shiftLeft,
    BitVec.getElem_ushiftRight]
  interval_cases i <;> simp

theorem attrBits_base : baseHigh high base &&& 0x00f0ff00#32 = high &&& 0x00f0ff00#32 := by
  ext i hi
  simp only [baseHigh, BitVec.getElem_or, BitVec.getElem_and, BitVec.getElem_ushiftRight]
  interval_cases i <;> simp

theorem limitBits_limit :
    (limitLow low limit &&& 0xffff#32) ||| (limitHigh high limit &&& 0xf0000#32) =
      limit &&& 0xfffff#32 := by
  ext i hi
  simp only [limitLow, limitHigh, BitVec.getElem_or, BitVec.getElem_and]
  interval_cases i <;> simp

theorem baseBits_limit :
    (limitLow low limit >>> 16) ||| ((limitHigh high limit &&& 0xff#32) <<< 16) |||
        (limitHigh high limit &&& 0xff000000#32) =
      (low >>> 16) ||| ((high &&& 0xff#32) <<< 16) ||| (high &&& 0xff000000#32) := by
  ext i hi
  simp only [limitLow, limitHigh, BitVec.getElem_or, BitVec.getElem_and,
    BitVec.getElem_shiftLeft, BitVec.getElem_ushiftRight, BitVec.getLsbD_or, BitVec.getLsbD_and]
  interval_cases i <;> simp

theorem attrBits_limit : limitHigh high limit &&& 0x00f0ff00#32 = high &&& 0x00f0ff00#32 := by
  ext i hi
  simp only [limitHigh, BitVec.getElem_or, BitVec.getElem_and]
  interval_cases i <;> simp

theorem baseLow_limitLow :
    baseLow (limitLow low limit) base = limitLow (baseLow low base) limit &&& ~~~0xff00#32 := by
  ext i hi
  simp only [baseLow, limitLow, BitVec.getElem_or, BitVec.getElem_and, BitVec.getElem_shiftLeft]
  interval_cases i <;> simp

theorem limitLow_and : limitLow low limit &&& 0xff00#32 = limit &&& 0xff00#32 := by
  ext i hi
  simp only [limitLow, BitVec.getElem_or, BitVec.getElem_and]
  interval_cases i <;> simp

theorem baseHigh_limitHigh :
    baseHigh (limitHigh high limit) base = limitHigh (baseHigh high base) limit := by
  ext i hi
  simp only [baseHigh, limitHigh, BitVec.getElem_or, BitVec.getElem_and,
    BitVec.getElem_ushiftRight]
  interval_cases i <;> simp

theorem baseLow_idem : baseLow (baseLow low base) base = baseLow low base := by
  ext i hi
  simp only [baseLow, BitVec.getElem_or, BitVec.getElem_and, BitVec.getElem_shiftLeft]
  interval_cases i <;> simp

theorem baseHigh_idem : baseHigh (baseHigh high base) base = baseHigh high base := by
  ext i hi
  simp only [baseHigh, BitVec.getElem_or, BitVec.getElem_and, BitVec.getElem_ushiftRight]
  interval_cases i <;> simp

theorem limitLow_idem : limitLow (limitLow low limit) limit = limitLow low limit := by
  ext i hi
  simp only [limitLow, BitVec.getElem_or, BitVec.getElem_and]
  interval_cases i <;> simp

theorem limitHigh_idem : limitHigh (limitHigh high limit) limit = limitHigh high limit := by
  ext i hi
  simp only [limitHigh, BitVec.getElem_or, BitVec.getElem_and]
  interval_cases i <;> simp

end Bits

/-! ## The setters -/

section Setters

variable {d d' : Desc}

theorem desc_ext (hlow : d.low.toBitVec = d'.low.toBitVec)
    (hhigh : d.high.toBitVec = d'.high.toBitVec) : d = d' := by
  cases d
  cases d'
  simp only [Desc.mk.injEq]
  exact ⟨UInt32.toBitVec_inj.mp hlow, UInt32.toBitVec_inj.mp hhigh⟩

theorem descLimit_setDescBase (d : Desc) (base : UInt32) :
    descLimit (setDescBase d base) = descLimit d &&& ~~~0xff00 := by
  apply UInt32.toBitVec_inj.mp
  exact limitBits_base d.low.toBitVec d.high.toBitVec base.toBitVec

theorem descAttr_setDescBase (d : Desc) (base : UInt32) :
    descAttr (setDescBase d base) = descAttr d := by
  apply UInt32.toBitVec_inj.mp
  exact attrBits_base d.high.toBitVec base.toBitVec

theorem descLimit_setDescLimit (d : Desc) (limit : UInt32) :
    descLimit (setDescLimit d limit) = limit &&& 0xfffff := by
  apply UInt32.toBitVec_inj.mp
  exact limitBits_limit d.low.toBitVec d.high.toBitVec limit.toBitVec

theorem descBase_setDescLimit (d : Desc) (limit : UInt32) :
    descBase (setDescLimit d limit) = descBase d := by
  apply UInt32.toBitVec_inj.mp
  exact baseBits_limit d.low.toBitVec d.high.toBitVec limit.toBitVec

theorem descAttr_setDescLimit (d : Desc) (limit : UInt32) :
    descAttr (setDescLimit d limit) = descAttr d := by
  apply UInt32.toBitVec_inj.mp
  exact attrBits_limit d.high.toBitVec limit.toBitVec

theorem setDescBase_idem (d : Desc) (base : UInt32) :
    setDescBase (setDescBase d base) base = setDescBase d base :=
  desc_ext (baseLow_idem d.low.toBitVec base.toBitVec) (baseHigh_idem d.high.toBitVec base.toBitVec)

theorem setDescLimit_idem (d : Desc) (limit : UInt32) :
    setDescLimit (setDescLimit d limit) limit = setDescLimit d limit :=
  desc_ext (limitLow_idem d.low.toBitVec limit.toBitVec)
    (limitHigh_idem d.high.toBitVec limit.toBitVec)

theorem clear_eq_self (x : UInt32) : x &&& ~~~0xff00 = x ↔ x &&& 0xff00 = 0 := by
  rw [← UInt32.toBitVec_inj, ← UInt32.toBitVec_inj]
  exact clear_eq_self_iff x.toBitVec 0xff00#32

/-- Setting the limit first loses the bits of it that setting the base clears. -/
theorem setDescBase_comm_iff (d : Desc) (base limit : UInt32) :
    setDescBase (setDescLimit d limit) base = setDescLimit (setDescBase d base) limit ↔
      limit &&& 0xff00 = 0 := by
  have hlow := baseLow_limitLow d.low.toBitVec base.toBitVec limit.toBitVec
  have hcut := clear_eq_self_iff (limitLow (baseLow d.low.toBitVec base.toBitVec) limit.toBitVec)
    0xff00#32
  rw [limitLow_and] at hcut
  constructor
  · intro h
    have hbits := congrArg (fun d : Desc => d.low.toBitVec) h
    exact UInt32.toBitVec_inj.mp (hcut.mp (hlow.symm.trans hbits))
  · intro h
    have hbits := hcut.mpr (UInt32.toBitVec_inj.mpr h)
    exact desc_ext (hlow.trans hbits)
      (baseHigh_limitHigh d.high.toBitVec base.toBitVec limit.toBitVec)

theorem toNat_and_limit (limit : UInt32) : (limit &&& 0xfffff).toNat = limit.toNat % 2 ^ 20 := by
  rw [UInt32.toNat_and]
  exact Nat.and_two_pow_sub_one_eq_mod _ 20

end Setters

/-! ## The laws -/

/-- What set_desc_base should do to a descriptor, what set_desc_limit should do to it, and how the
two should go together. -/
structure LensLaws (d : Desc) (base limit : UInt32) : Prop where
  setBase : descBase (setDescBase d base) = base
  baseLimit : descLimit (setDescBase d base) = descLimit d
  baseAttr : descAttr (setDescBase d base) = descAttr d
  setLimit : (descLimit (setDescLimit d limit)).toNat = limit.toNat % 2 ^ 20
  limitBase : descBase (setDescLimit d limit) = descBase d
  limitAttr : descAttr (setDescLimit d limit) = descAttr d
  comm : setDescBase (setDescLimit d limit) base = setDescLimit (setDescBase d base) limit
  baseIdem : setDescBase (setDescBase d base) base = setDescBase d base
  limitIdem : setDescLimit (setDescLimit d limit) limit = setDescLimit d limit

theorem lensLaws_iff (d : Desc) (base limit : UInt32) :
    LensLaws d base limit ↔ descLimit d &&& 0xff00 = 0 ∧ limit &&& 0xff00 = 0 := by
  rw [← setDescBase_comm_iff d base limit, ← clear_eq_self (descLimit d),
    ← descLimit_setDescBase d base]
  constructor
  · exact fun h => ⟨h.baseLimit, h.comm⟩
  · rintro ⟨hlimit, hcomm⟩
    refine ⟨descBase_setDescBase d base, hlimit, descAttr_setDescBase d base, ?_,
      descBase_setDescLimit d limit, descAttr_setDescLimit d limit, hcomm, setDescBase_idem d base,
      setDescLimit_idem d limit⟩
    rw [descLimit_setDescLimit, toNat_and_limit]

/-! ## The segments of the tasks -/

/-- The child has segments of its own base, with the limits of its parent. -/
def ForkKeeps (m m' : Machine) (pid : Fin nrTask) : Prop :=
  ∃ child, m'.sched.table pid = some child ∧
    ∀ i, descBase ((m'.sched.task child).thread.ldt i) = UInt32.ofNat (windowBase pid.val) ∧
      descLimit ((m'.sched.task child).thread.ldt i) =
        descLimit ((m.sched.task m.sched.current).thread.ldt i)

/-- init has the segments of INIT_TASK; every other task got its own from set_desc_base. -/
structure Segments (s : Sched) : Prop where
  init : (s.task .init).thread.ldt = initTaskStruct.thread.ldt
  page : ∀ p a, s.table p = some (.page a) →
    ∀ i, descLimit ((s.task (.page a)).thread.ldt i) &&& 0xff00 = 0

section Segments

variable {s s' : Sched} {m m' : Machine} {pid : Fin nrTask} {esp fuel : Nat}

theorem Segments.keep (h : Segments s)
    (htask : ∀ x, (s'.task x).thread.ldt = (s.task x).thread.ldt) (htable : s'.table = s.table) :
    Segments s' := by
  refine ⟨(htask .init).trans h.init, fun p a hp => ?_⟩
  rw [htask]
  exact h.page p a (htable ▸ hp)

/-- The segments of a child. -/
theorem ldt_forked {child : TaskPtr} (hf : Forked s s' child pid) (i : Fin 2) :
    (s'.task child).thread.ldt i =
      setDescBase ((s.task s.current).thread.ldt i) (UInt32.ofNat (windowBase pid.val)) := by
  rw [hf.made]
  rfl

theorem Segments.forked {a : Nat} (h : Segments s) (hf : Forked s s' (.page a) pid)
    (hfresh : ∀ p, s.table p ≠ some (.page a)) : Segments s' := by
  have hother : ∀ x, x ≠ .page a → (s'.task x).thread.ldt = (s.task x).thread.ldt := by
    intro x hx
    by_cases hc : x = s.current
    · rw [hc, hf.parent]
      rfl
    · rw [hf.other x hx hc]
  refine ⟨(hother .init (by simp)).trans h.init, fun p b hp i => ?_⟩
  obtain ⟨-, heq⟩ | ⟨-, hp⟩ := table_forked hf hp
  · rw [heq, ldt_forked hf, descLimit_setDescBase, UInt32.and_assoc]
    exact UInt32.and_zero
  · rw [hother _ fun heq => hfresh p (heq ▸ hp)]
    exact h.page p b hp i

theorem Segments.step {a : Event} (h : Segments m.sched) (hwin : Windows m)
    (st : Step m a m') : Segments m'.sched := by
  cases st with
  | fork hfork =>
    rcases doFork_child hwin hfork with ⟨-, rfl⟩ | ⟨_, _, _, s₁, -, -, hfresh, hf, hsched, -⟩
    · refine h.keep (fun x => ?_) rfl
      by_cases hx : x = m.sched.current
      · rw [hx, setTaskRetval, Sched.setTask_self]
        rfl
      · rw [setTaskRetval, Sched.setTask_of_ne _ _ hx]
    · exact (h.forked hf hfresh).keep (fun x => (hsched.task x).ldt) hsched.table
  | fault _ _ => exact h
  | clock hsched =>
    have hs := schedule_ok hsched
    exact h.keep (fun x => (hs.task x).ldt) hs.table
  | @dispatch t esp ht =>
    refine h.keep (fun x => ?_) rfl
    by_cases hx : x = m.sched.current
    · rw [hx, switchTo_self]
    · rw [switchTo_of_ne _ _ _ hx]

theorem segments_reach {m₀ : Machine} (hboot : Booted m₀) (hreach : Reach Step m₀ m) :
    Segments m.sched := by
  have hstart : Windows m₀ ∧ Segments m₀.sched := by
    obtain ⟨s, hs⟩ := hboot.sched
    obtain ⟨htask, htable, -, -⟩ := schedInit_ok hs
    refine ⟨hboot.windows, by rw [htask], fun p a hp => ?_⟩
    rw [htable] at hp
    by_cases hp0 : p = 0
    · rw [hp0, Function.update_self] at hp
      cases hp
    · rw [Function.update_of_ne hp0] at hp
      cases hp
  have hstep : ∀ s a s', Windows s ∧ Segments s.sched → Step s a s' →
      Windows s' ∧ Segments s'.sched :=
    fun _ _ _ h st => ⟨(h.1.step st).1, h.2.step h.1 st⟩
  exact (hreach.inv hstep hstart).2

/-- The limits of a child are those of its parent but for the byte set_desc_base clears. -/
theorem forkKeeps_iff (hwin : Windows m) (hfork : doFork m esp fuel = .ok m')
    (hpid : getPid m.sched = some pid) : ForkKeeps m m' pid ↔
      ∀ i, descLimit ((m.sched.task m.sched.current).thread.ldt i) &&& 0xff00 = 0 := by
  obtain ⟨hnone, -⟩ | ⟨pid', page, _, s₁, hpid', -, -, hf, hsched, -⟩ := doFork_child hwin hfork
  · rw [hpid] at hnone
    cases hnone
  rw [hpid] at hpid'
  obtain rfl := Option.some.inj hpid'
  have htable : m'.sched.table pid = some (.page page) := by
    rw [hsched.table, hf.table, Function.update_self]
  have hldt : ∀ i, (m'.sched.task (.page page)).thread.ldt i =
      setDescBase ((m.sched.task m.sched.current).thread.ldt i)
        (UInt32.ofNat (windowBase pid.val)) := fun i => by
    rw [(hsched.task _).ldt, ldt_forked hf]
  constructor
  · rintro ⟨child, hchild, hkeeps⟩ i
    rw [htable] at hchild
    obtain rfl := Option.some.inj hchild
    have hlimit := (hkeeps i).2
    rw [hldt, descLimit_setDescBase] at hlimit
    exact (clear_eq_self _).mp hlimit
  · intro h
    refine ⟨.page page, htable, fun i => ?_⟩
    rw [hldt, descLimit_setDescBase]
    exact ⟨descBase_setDescBase _ _, (clear_eq_self _).mpr (h i)⟩

/-- Only init has limits that a fork cuts: its children have them cut already. -/
theorem uncut_iff (hboot : ∃ m₀, Booted m₀ ∧ Reach Step m₀ m) :
    (∀ i, descLimit ((m.sched.task m.sched.current).thread.ldt i) &&& 0xff00 = 0) ↔
      m.sched.current ≠ .init := by
  obtain ⟨m₀, hboot, hreach⟩ := hboot
  have hseg := segments_reach hboot hreach
  constructor
  · intro h heq
    have hfirst := h 0
    rw [heq, hseg.init] at hfirst
    exact absurd hfirst (by decide)
  · intro hne
    obtain ⟨p, hp⟩ := (hboot.reach hreach).placed.tabled.current
    cases hcur : m.sched.current with
    | init => exact absurd hcur hne
    | page a => exact hseg.page p a (hcur ▸ hp)

end Segments

/-- The laws hold of the descriptors and limits whose bits 8 to 15 are clear, and in every
reachable state a fork keeps the limits unless init forks. -/
theorem desc_laws_iff (d : Desc) (base limit : UInt32) :
    (LensLaws d base limit ↔ descLimit d &&& 0xff00 = 0 ∧ limit &&& 0xff00 = 0) ∧
    ∀ m₀ m, Booted m₀ → Reach Step m₀ m → ∀ esp fuel m' pid, doFork m esp fuel = .ok m' →
      getPid m.sched = some pid → (ForkKeeps m m' pid ↔ m.sched.current ≠ .init) := by
  refine ⟨lensLaws_iff d base limit, fun m₀ m hboot hreach esp fuel m' pid hfork hpid => ?_⟩
  rw [forkKeeps_iff (hboot.reach hreach) hfork hpid]
  exact uncut_iff ⟨m₀, hboot, hreach⟩

/-- init forks right after boot. -/
theorem init_forks : ∃ m m', bootMachine = .ok m ∧ doFork m 0 2 = .ok m' ∧
    getPid m.sched = some 1 ∧ m.sched.current = .init := by
  have hrun : (match bootMachine with
      | .ok m =>
        match doFork m 0 2 with
        | .ok _ => decide (getPid m.sched = some 1 ∧ m.sched.current = .init)
        | .error _ => false
      | .error _ => false) = true := by decide +kernel
  split at hrun
  swap
  · cases hrun
  rename_i m hboot
  split at hrun
  swap
  · cases hrun
  rename_i m' hfork
  exact ⟨m, m', hboot, hfork, of_decide_eq_true hrun⟩

theorem desc_laws_init : ∃ m m', doFork m 0 2 = .ok m' ∧ m.sched.current = .init ∧
    (ForkKeeps m m' 1 ↔ m.sched.current ≠ .init) := by
  obtain ⟨m, m', hboot, hfork, hpid, hcur⟩ := init_forks
  exact ⟨m, m', hfork, hcur,
    (desc_laws_iff ⟨0, 0⟩ 0 0).2 m m (bootMachine_booted hboot) .refl 0 2 m' 1 hfork hpid⟩

/-- The code segment of INIT_TASK loses four bits of its limit when a base is set, and the child
of init gets what is left. -/
theorem limit_cut : ¬LensLaws ⟨0xfff, 0xc0fa00⟩ 0x4000000 0xfff ∧
    ∃ m m', bootMachine = .ok m ∧ doFork m 0 2 = .ok m' ∧ ¬ForkKeeps m m' 1 := by
  constructor
  · intro h
    exact absurd h.baseLimit (by decide)
  · obtain ⟨m, m', hboot, hfork, hpid, hcur⟩ := init_forks
    have hbooted := bootMachine_booted hboot
    refine ⟨m, m', hboot, hfork, fun hkeeps => ?_⟩
    have hbits := (forkKeeps_iff hbooted.windows hfork hpid).mp hkeeps
    exact (uncut_iff ⟨m, hbooted, .refl⟩).mp hbits hcur

end RxdOs.Kernel.Descriptor
