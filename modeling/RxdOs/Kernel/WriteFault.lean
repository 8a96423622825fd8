/- RxdOs/Kernel/WriteFault
   source: mm/memory.c (do_wp_page, share_vma), kernel/syscall_impl.c
   digest: Write faults over all runs of forks and page faults: which of them do_wp_page
   resolves, and what it leaves alone. -/

import RxdOs.Kernel.TaskWindow

set_option autoImplicit false
set_option relaxedAutoImplicit false

namespace RxdOs.Kernel.WriteFault

open RxdOs.Base.Assert RxdOs.Base.Int32 RxdOs.Lib.Execution RxdOs.Mm.Memory RxdOs.Mm.Paging
  RxdOs.Kernel.Proc RxdOs.Kernel.Scheduler RxdOs.Kernel.Fork RxdOs.Kernel.TaskWindow

/-- The page table behind entry `i` of the directory. -/
def tableOf (phys : Phys) (i : Nat) : Nat := frameOf (pde phys i)

/-- The entry of the page of `addr` in its page table. -/
def pteOf (phys : Phys) (addr : Nat) : Nat := word phys (pteAddr phys addr)

/-- A write to `addr` raises a protection fault. -/
structure Protected (phys : Phys) (addr : Nat) : Prop where
  dir : pde phys (pdeIndex addr) ≠ 0
  present : present (pteOf phys addr) = true
  readOnly : writable (pteOf phys addr) = false

/-- A frame of kernel memory, or one that mem_map counts. -/
def InUse (s : Ram) (frame : Nat) : Prop :=
  frame < lowMem ∨ ∃ k < nrPages, frame = lowMem + k * pageSize ∧ s.mem.memMap k ≠ 0

/-- The page of a task: a frame in use that is no page table.  (Task 0 also maps all memory up to
16 MB onto itself, the free frames and the page tables among it.) -/
structure TaskPage (s : Ram) (frame : Nat) : Prop where
  aligned : frame % pageSize = 0
  inUse : InUse s frame
  notTable : ∀ i < 1024, pde s.phys i ≠ 0 → tableOf s.phys i ≠ frame

/-- do_wp_page returns, the page is present and writable with the contents it had, and every other
page of the linear address space has the entry and the contents it had. -/
structure Solved (s s' : Ram) (addr : Nat) : Prop where
  present : present (pteOf s'.phys addr) = true
  writable : writable (pteOf s'.phys addr) = true
  contents : ∀ i < pageSize, s'.phys (pageAddr s'.phys addr + i) = s.phys (pageAddr s.phys addr + i)
  directory : ∀ i < 1024, pde s'.phys i = pde s.phys i
  mapping : ∀ a, pdeIndex a < 1024 → pde s.phys (pdeIndex a) ≠ 0 →
    a / pageSize ≠ addr / pageSize → pteOf s'.phys a = pteOf s.phys a
  pages : ∀ frame, TaskPage s frame → ∀ i < pageSize, s'.phys (frame + i) = s.phys (frame + i)

def Resolved (s : Ram) (addr : Nat) : Prop := ∃ s', doWpPage s addr = .ok s' ∧ Solved s s' addr

/-! ## Page tables -/

/-- Every page table is present, in use, and behind one entry only. -/
structure Tables (s : Ram) : Prop where
  present : ∀ i < 1024, pde s.phys i ≠ 0 → present (pde s.phys i) = true
  inUse : ∀ i < 1024, pde s.phys i ≠ 0 → pageSize ≤ tableOf s.phys i ∧ InUse s (tableOf s.phys i)
  apart : ∀ i < 1024, ∀ j < 1024, pde s.phys i ≠ 0 → pde s.phys j ≠ 0 → i ≠ j →
    tableOf s.phys i ≠ tableOf s.phys j

instance (pid : Int) (addr : Nat) : Decidable (InWindow pid addr) :=
  inferInstanceAs (Decidable (_ ∧ _))

variable {s s' : Ram} {addr page frame : Nat} {mem : Mem}

theorem InUse.mono (hused : ∀ k, s.mem.memMap k ≠ 0 → s'.mem.memMap k ≠ 0) (h : InUse s frame) :
    InUse s' frame := by
  rcases h with hlow | ⟨k, hk, heq, hcount⟩
  · exact .inl hlow
  · exact .inr ⟨k, hk, heq, hused k hcount⟩

/-- A frame that alloc_page hands out was not in use. -/
theorem InUse.ne_alloc (h : InUse s frame) (halloc : allocPage s.mem = .ok (page, mem)) :
    frame ≠ page := by
  obtain ⟨j, -, rfl, hfree, -⟩ := allocPage_ok halloc
  rintro rfl
  rcases h with hlow | ⟨k, -, heq, hcount⟩
  · exact absurd hlow (not_lt.mpr (Nat.le_add_right _ _))
  · have hjk : j = k := by
      simp only [pageSize] at heq
      omega
    exact hcount (hjk ▸ hfree)

theorem Tables.keep (h : Tables s) (hdir : ∀ i < 1024, pde s'.phys i = pde s.phys i)
    (hused : ∀ k, s.mem.memMap k ≠ 0 → s'.mem.memMap k ≠ 0) : Tables s' := by
  have htable : ∀ i < 1024, tableOf s'.phys i = tableOf s.phys i := fun i hi => by
    rw [tableOf, hdir i hi, tableOf]
  refine ⟨fun i hi hne => ?_, fun i hi hne => ?_, fun i hi j hj hi0 hj0 hij => ?_⟩
  · rw [hdir i hi] at hne ⊢
    exact h.present i hi hne
  · rw [hdir i hi] at hne
    rw [htable i hi]
    exact ⟨(h.inUse i hi hne).1, (h.inUse i hi hne).2.mono hused⟩
  · rw [hdir i hi] at hi0
    rw [hdir j hj] at hj0
    rw [htable i hi, htable j hj]
    exact h.apart i hi j hj hi0 hj0 hij

/-- One more table, in a frame of alloc_page. -/
theorem Tables.add (h : Tables s) (halloc : allocPage s.mem = .ok (page, mem)) {t : Nat}
    (hdir : ∀ i < 1024, pde s'.phys i = if i = t then entryOf page else pde s.phys i)
    (hused : ∀ k, mem.memMap k ≠ 0 → s'.mem.memMap k ≠ 0) : Tables s' := by
  obtain ⟨hle, hlt, hframe⟩ := pageSize_le_alloc halloc
  have hnew : ∀ i < 1024, i = t → tableOf s'.phys i = page := fun i hi hit => by
    rw [tableOf, hdir i hi, if_pos hit, frameOf_entryOf, hframe]
  have hold : ∀ i < 1024, i ≠ t → pde s'.phys i = pde s.phys i := fun i hi hit => by
    rw [hdir i hi, if_neg hit]
  have hfresh : ∀ i < 1024, i ≠ t → pde s'.phys i ≠ 0 → tableOf s'.phys i ≠ page := by
    intro i hi hit hne
    rw [hold i hi hit] at hne
    rw [tableOf, hold i hi hit]
    exact (h.inUse i hi hne).2.ne_alloc halloc
  refine ⟨fun i hi hne => ?_, fun i hi hne => ?_, fun i hi j hj hi0 hj0 hij => ?_⟩
  · by_cases hit : i = t
    · rw [hdir i hi, if_pos hit]
      exact present_entryOf page
    · rw [hold i hi hit] at hne ⊢
      exact h.present i hi hne
  · by_cases hit : i = t
    · rw [hnew i hi hit]
      obtain ⟨k, hk, hpage, -, rfl⟩ := allocPage_ok halloc
      refine ⟨hle, .inr ⟨k, hk, hpage, hused k ?_⟩⟩
      show Function.update s.mem.memMap k 1 k ≠ 0
      rw [Function.update_self]
      decide
    · rw [hold i hi hit] at hne
      rw [tableOf, hold i hi hit]
      refine ⟨(h.inUse i hi hne).1, (h.inUse i hi hne).2.mono fun k hk => ?_⟩
      exact hused k (allocPage_used halloc hk)
  · by_cases hit : i = t
    · rw [hnew i hi hit]
      exact (hfresh j hj (fun hjt => hij (hit.trans hjt.symm)) hj0).symm
    · by_cases hjt : j = t
      · rw [hnew j hj hjt]
        exact hfresh i hi hit hi0
      · rw [hold i hi hit] at hi0
        rw [hold j hj hjt] at hj0
        rw [tableOf, tableOf, hold i hi hit, hold j hj hjt]
        exact h.apart i hi j hj hi0 hj0 hij

/-! ## A fault on a protected page -/

/-- Frames are aligned, so different ones do not meet. -/
theorem frames_apart {a b : Nat} (ha : a % pageSize = 0) (hb : b % pageSize = 0) (hne : a ≠ b) :
    a + pageSize ≤ b ∨ b + pageSize ≤ a := by
  simp only [pageSize] at ha hb ⊢
  omega

theorem frameOf_mod (w : Nat) : frameOf w % pageSize = 0 := Nat.mul_mod_left ..

theorem pteAddr_eq (phys : Phys) (addr : Nat) :
    pteAddr phys addr = tableOf phys (pdeIndex addr) + addr / pageSize % 1024 * 4 := by
  rw [pteAddr, tableOf, pde, pdeAddr_eq]

/-- What do_wp_page does to a page below LOW_MEM. -/
theorem Tables.solved (h : Tables s) (haddr : pdeIndex addr < 1024) (hprot : Protected s.phys addr)
    (halloc : allocPage s.mem = .ok (page, mem)) {phys : Phys}
    (hphys : phys = poke (copyPage s.phys page (pageAddr s.phys addr)) (pteAddr s.phys addr)
      (entryOf page)) : Solved s ⟨mem, phys⟩ addr := by
  obtain ⟨hle, hlt, hframe⟩ := pageSize_le_alloc halloc
  obtain ⟨htable, huse⟩ := h.inUse _ haddr hprot.dir
  have hmod : page % pageSize = 0 := by
    rw [← hframe]
    exact frameOf_mod page
  have hidx : addr / pageSize % 1024 * 4 + 4 ≤ pageSize := by
    simp only [pageSize]
    omega
  have hpte := pteAddr_eq s.phys addr
  -- a word outside the new page and the entry keeps its value
  have hword : ∀ a, (a + 4 ≤ page ∨ page + pageSize ≤ a) →
      (a + 4 ≤ pteAddr s.phys addr ∨ pteAddr s.phys addr + 4 ≤ a) → word phys a = word s.phys a := by
    intro a ha ha'
    rw [hphys, word_poke_of_disjoint ha']
    apply word_congr
    intro i hi hi'
    apply copyPage_of_not_mem
    omega
  have hmodTable : ∀ i, tableOf s.phys i % pageSize = 0 := fun i => frameOf_mod _
  have hapart := frames_apart (hmodTable _) hmod (huse.ne_alloc halloc)
  have hdir : ∀ i < 1024, pde phys i = pde s.phys i := by
    intro i hi
    have hsize : 4 * i + 4 ≤ pageSize := by
      simp only [pageSize]
      omega
    exact hword _ (.inl (hsize.trans hle)) (.inl (by rw [hpte]; omega))
  have hpteAddr : ∀ a, pdeIndex a < 1024 → pteAddr phys a = pteAddr s.phys a := by
    intro a ha
    rw [pteAddr_eq, pteAddr_eq, tableOf, tableOf, hdir _ ha]
  have hentry : pteOf phys addr = entryOf page := by
    rw [pteOf, hpteAddr addr haddr, hphys]
    exact word_poke_self (entryOf_lt hlt)
  refine ⟨?_, ?_, fun i hi => ?_, hdir, fun a ha hne hpage => ?_, fun frame hframe' i hi => ?_⟩
  · rw [hentry]
    exact present_entryOf page
  · rw [hentry]
    exact writable_entryOf page
  · have hnew : pageAddr phys addr = page := by
      rw [pageAddr, show word phys (pteAddr phys addr) = entryOf page from hentry, frameOf_entryOf,
        hframe]
    show phys (pageAddr phys addr + i) = _
    rw [hnew, hphys, poke_of_not_mem (by rw [hpte]; omega)]
    exact copyPage_apply hi
  · obtain ⟨-, hause⟩ := h.inUse _ ha hne
    have haidx : a / pageSize % 1024 * 4 + 4 ≤ pageSize := by
      simp only [pageSize]
      omega
    have hfree := frames_apart (hmodTable _) hmod (hause.ne_alloc halloc)
    rw [pteOf, hpteAddr a ha, pteOf]
    refine hword _ ?_ ?_
    · rw [pteAddr_eq]
      omega
    · rw [hpte, pteAddr_eq]
      by_cases hsame : pdeIndex a = pdeIndex addr
      · -- two entries of one table
        rw [hsame]
        simp only [pdeIndex, pageSize] at hsame hpage ⊢
        omega
      · have htables := frames_apart (hmodTable _) (hmodTable _)
          (h.apart _ ha _ haddr hne hprot.dir hsame)
        omega
  · have hfree := frames_apart hframe'.aligned hmod (hframe'.inUse.ne_alloc halloc)
    have htables := frames_apart (hmodTable _) hframe'.aligned (hframe'.notTable _ haddr hprot.dir)
    show phys (frame + i) = _
    rw [hphys, poke_of_not_mem (by rw [hpte]; omega), copyPage_of_not_mem (by omega)]

/-- A write fault is resolved exactly on a page below LOW_MEM, not the first one, while a frame is
free. -/
theorem Tables.resolved_iff (h : Tables s) (haddr : pdeIndex addr < 1024)
    (hprot : Protected s.phys addr) : Resolved s addr ↔
      0 < pageAddr s.phys addr ∧ pageAddr s.phys addr < lowMem ∧ Spare s.mem := by
  constructor
  · rintro ⟨s', hret, -⟩
    obtain ⟨hlow, page, halloc, -⟩ := doWpPage_ok hret
    exact ⟨Nat.pos_of_ne_zero (doWpPage_frame hret), hlow, allocPage_spare.mp ⟨_, halloc⟩⟩
  · rintro ⟨hpos, hlow, hspare⟩
    obtain ⟨⟨page, mem⟩, halloc⟩ := allocPage_spare.mpr hspare
    obtain ⟨k, -, hpage, -, -⟩ := allocPage_ok halloc
    have hmod : pageAddr s.phys addr % pageSize = 0 := frameOf_mod _
    have hbelow : pageAddr s.phys addr + pageSize ≤ page := by
      simp only [lowMem, pageSize] at hlow hmod hpage ⊢
      omega
    have hcopy : memcpyPage s.phys page (pageAddr s.phys addr) =
        .ok (copyPage s.phys page (pageAddr s.phys addr)) := memcpyPage_eq hpos.ne' hbelow
    refine ⟨⟨mem, _⟩, ?_, h.solved haddr hprot halloc rfl⟩
    rw [doWpPage]
    dsimp only
    rw [if_pos hlow, halloc, ok_bind]
    dsimp only
    rw [← pageAddr, hcopy]
    rfl

/-! ## Runs -/

/-- What the tasks do, and a write to a protected page. -/
inductive Event
  | task (e : TaskWindow.Event)
  | writeFault (addr : Nat)

/-- The steps of the tasks, and the write faults of the current one that are resolved. -/
inductive Step : Machine → Event → Machine → Prop
  | task {m m' : Machine} {e : TaskWindow.Event} : TaskWindow.Step m e m' → Step m (.task e) m'
  | writeFault {m : Machine} {addr : Nat} {ram : Ram} :
      InWindow (m.sched.task m.sched.current).pid addr → Protected m.ram.phys addr →
      doWpPage m.ram addr = .ok ram → Step m (.writeFault addr) { m with ram := ram }

structure Inv (m : Machine) : Prop where
  windows : Windows m
  tables : Tables m.ram

section Steps

variable {m m' : Machine}

/-- The current task's addresses go through the directory. -/
theorem index_lt (h : Windows m) (hin : InWindow (m.sched.task m.sched.current).pid addr) :
    pdeIndex addr < 1024 := by
  obtain ⟨c, hc⟩ := h.placed.tabled.current
  rw [h.placed.tabled.pid c _ hc] at hin
  exact (pdeIndex_of_inWindow hin).1

theorem tables_step (h : Inv m) {e : TaskWindow.Event} (st : TaskWindow.Step m e m') :
    Tables m'.ram := by
  cases st with
  | fork hfork =>
    rcases doFork_child h.windows hfork with ⟨-, rfl⟩ |
      ⟨pid, page, mem, s₁, -, halloc, -, -, -, hshare⟩
    · exact h.tables
    · have hlt : pid.val < 64 := pid.isLt
      have hto : pdeIndex (windowBase pid.val) < 1024 := by
        rw [pdeIndex_windowBase]
        omega
      have hmid : Tables { m.ram with mem := mem } :=
        h.tables.keep (fun _ _ => rfl) fun k hk => allocPage_used halloc hk
      obtain ⟨-, table, halloc', hdir⟩ := shareVma_pde hto hshare
      exact hmid.add halloc' hdir fun k hk => hk
  | fault hin hfault =>
    have hlt := index_lt h.windows hin
    have htable : present (pde m.ram.phys (pdeIndex _)) = true → pageSize ≤ _ := fun hp =>
      (h.tables.inUse _ hlt fun hzero => by rw [hzero] at hp; cases hp).1
    rcases doNoPage_dir htable hfault with ⟨-, hdir, hused⟩ | ⟨table, mem, halloc, hdir, hused⟩
    · exact h.tables.keep hdir hused
    · exact h.tables.add halloc hdir hused
  | clock => exact h.tables
  | dispatch => exact h.tables

/-- Nothing but the memory changes, and no entry of the directory. -/
theorem windows_ram (h : Windows m) {ram : Ram} (hdir : ∀ i < 1024, pde ram.phys i = pde m.ram.phys i)
    (hused : ∀ k, m.ram.mem.memMap k ≠ 0 → ram.mem.memMap k ≠ 0) : Windows { m with ram := ram } := by
  refine ⟨h.placed, ⟨fun i hi hne => ?_, fun i hi hne => ?_⟩, fun p a hp => ?_⟩
  · exact h.mapped.live i hi (hdir i hi ▸ hne)
  · rw [show pde ({ m with ram := ram } : Machine).ram.phys i = pde m.ram.phys i from hdir i hi] at hne ⊢
    exact h.mapped.frame i hi hne
  · obtain ⟨k, hk, hcount⟩ := h.housed p a hp
    exact ⟨k, hk, hused k hcount⟩

theorem Inv.step (h : Inv m) {e : Event} (st : Step m e m') : Inv m' := by
  cases st with
  | task st => exact ⟨(h.windows.step st).1, tables_step h st⟩
  | @writeFault addr ram hin hprot hfault =>
    have hlt := index_lt h.windows hin
    obtain ⟨-, page, halloc, hphys⟩ := doWpPage_ok hfault
    have hdir : ∀ i < 1024, pde ram.phys i = pde m.ram.phys i :=
      (h.tables.solved hlt hprot halloc hphys).directory
    have hused : ∀ k, m.ram.mem.memMap k ≠ 0 → ram.mem.memMap k ≠ 0 := fun k hk =>
      allocPage_used halloc hk
    exact ⟨windows_ram h.windows hdir hused, h.tables.keep hdir hused⟩

/-- head.asm's four tables lie in kernel memory. -/
theorem inv_booted (h : Booted m) : Inv m := by
  have hsmall : ∀ i < 1024, pde m.ram.phys i ≠ 0 → i < 4 := fun i hi hne => by
    by_contra hge
    exact hne (h.empty i hi (not_lt.mp hge))
  have htable : ∀ i < 4, tableOf m.ram.phys i = (i + 1) * pageSize := fun i hi => by
    rw [tableOf, h.tables i hi]
    simp only [frameOf, pageSize]
    omega
  refine ⟨h.windows, ⟨fun i hi hne => ?_, fun i hi hne => ?_, fun i hi j hj hi0 hj0 hij => ?_⟩⟩
  · rw [h.tables i (hsmall i hi hne)]
    apply decide_eq_true
    simp only [pageSize]
    omega
  · have hi4 := hsmall i hi hne
    rw [htable i hi4]
    simp only [InUse, pageSize, lowMem]
    exact ⟨by omega, .inl (by omega)⟩
  · rw [htable i (hsmall i hi hi0), htable j (hsmall j hj hj0)]
    simp only [pageSize]
    omega

/-- Write faults.  In every state of a run, do_wp_page on a page of the current task that share_vma
has protected returns with everything as it should be exactly when the page lies below LOW_MEM but
is not the first one, and a frame is free; for a page of alloc_page it never returns. -/
theorem write_faults_resolved_iff {m₀ : Machine} (hboot : Booted m₀) (hreach : Reach Step m₀ m)
    (hin : InWindow (m.sched.task m.sched.current).pid addr) (hprot : Protected m.ram.phys addr) :
    Resolved m.ram addr ↔ 0 < pageAddr m.ram.phys addr ∧ pageAddr m.ram.phys addr < lowMem ∧
      Spare m.ram.mem := by
  have h : Inv m := hreach.inv (fun _ _ _ hm st => hm.step st) (inv_booted hboot)
  exact h.tables.resolved_iff (index_lt h.windows hin) hprot

end Steps

/-! ## A child and its child -/

/-- Free frames, and the directory and tables of head.asm: 16 MB mapped onto themselves. -/
def identityRam : Ram where
  mem := ⟨0xffffff, fun _ => 0⟩
  phys a :=
    if a < 16 then byteOf ((a / 4 + 1) * pageSize + 7) (a % 4)
    else if pageSize ≤ a ∧ a < 5 * pageSize then byteOf ((a - pageSize) / 4 * pageSize + 7) (a % 4)
    else 0

def identityMachine : Kernel Machine := do
  let s ← schedInit blankSched
  pure ⟨s, identityRam⟩

theorem identityMachine_booted {m : Machine} (h : identityMachine = .ok m) : Booted m := by
  simp only [identityMachine, bind_eq_ok, pure_eq_ok, Except.ok.injEq] at h
  obtain ⟨s, hs, rfl⟩ := h
  have hfew : ∀ i < 4, pde identityRam.phys i = (i + 1) * pageSize + 7 := by decide
  refine ⟨⟨blankSched, hs⟩, hfew, fun i hi hlarge => ?_⟩
  have hzero : pde identityRam.phys i = word (fun _ => 0) (4 * i) := by
    apply word_congr
    intro x hx hx'
    have hdir : ¬x < 16 := by omega
    have htable : ¬(pageSize ≤ x ∧ x < 5 * pageSize) := by
      simp only [pageSize]
      omega
    show (if x < 16 then _ else if pageSize ≤ x ∧ x < 5 * pageSize then _ else _) = _
    rw [if_neg hdir, if_neg htable]
  rw [hzero]
  rfl

/-- do_fork in the current task, with its child on the processor afterwards. -/
def forkInto (m : Machine) (child : TaskPtr) : Kernel Machine := do
  let m ← doFork m 0 2
  access (child ∈ tasks m.sched) "task_table"
  pure { m with sched := switchTo m.sched m.sched.current child 0 }

theorem forkInto_reach {m m' : Machine} {child : TaskPtr} (h : forkInto m child = .ok m') :
    Reach Step m m' := by
  simp only [forkInto, bind_eq_ok, access_eq_ok, pure_eq_ok, Except.ok.injEq] at h
  obtain ⟨m₁, hfork, _, hmem, rfl⟩ := h
  exact .tail (.single ⟨_, .task (.fork hfork)⟩) ⟨_, .task (.dispatch hmem)⟩

/-- Init forks a child, which writes to its page at 0x10000 and then forks a child of its own. -/
def familyRun : Kernel (Machine × Machine × Ram × Machine) := do
  let m₀ ← identityMachine
  let m₁ ← forkInto m₀ (.page 0x100000)
  let ram ← doWpPage m₁.ram 0x4010000
  let m₂ ← forkInto { m₁ with ram := ram } (.page 0x103000)
  pure (m₀, m₁, ram, m₂)

/-- `addr` lies in the window of the current task, and its page has the entry `w`. -/
def entryAt (m : Machine) (addr w : Nat) : Bool :=
  InWindow (m.sched.task m.sched.current).pid addr ∧ pde m.ram.phys (pdeIndex addr) ≠ 0 ∧
    pteOf m.ram.phys addr = w

theorem entryAt_fault {m : Machine} {w : Nat} (h : entryAt m addr w = true)
    (hpresent : present w = true) (hreadOnly : writable w = false) :
    InWindow (m.sched.task m.sched.current).pid addr ∧ Protected m.ram.phys addr ∧
      pageAddr m.ram.phys addr = frameOf w := by
  obtain ⟨hin, hdir, hentry⟩ := of_decide_eq_true h
  refine ⟨hin, ⟨hdir, ?_, ?_⟩, congrArg frameOf hentry⟩
  · rwa [hentry]
  · rwa [hentry]

theorem familyRun_ok : ∃ m₀ m₁ ram m₂, familyRun = .ok (m₀, m₁, ram, m₂) ∧
    entryAt m₁ 0x4010000 0x10005 = true ∧ entryAt m₂ 0x8010000 0x102005 = true := by
  have hrun : (match familyRun with
      | .ok (_, m₁, _, m₂) => entryAt m₁ 0x4010000 0x10005 && entryAt m₂ 0x8010000 0x102005
      | .error _ => false) = true := by decide +kernel
  split at hrun
  · rename_i m₀ m₁ ram m₂ heq
    exact ⟨m₀, m₁, ram, m₂, heq, Bool.and_eq_true_iff.mp hrun⟩
  · cases hrun

/-- The child's write is resolved. -/
theorem write_faults_resolved_iff_child : ∃ m₀ m, Booted m₀ ∧ Reach Step m₀ m ∧
    Resolved m.ram 0x4010000 := by
  obtain ⟨m₀, m₁, ram, m₂, hrun, hchild, -⟩ := familyRun_ok
  simp only [familyRun, bind_eq_ok, pure_eq_ok, Except.ok.injEq, Prod.mk.injEq] at hrun
  obtain ⟨_, hboot, _, hfork, _, hwp, _, -, rfl, rfl, rfl, rfl⟩ := hrun
  have hbooted := identityMachine_booted hboot
  obtain ⟨hin, hprot, -⟩ := entryAt_fault hchild rfl rfl
  obtain ⟨hlow, page, halloc, -⟩ := doWpPage_ok hwp
  exact ⟨_, _, hbooted, forkInto_reach hfork,
    (write_faults_resolved_iff hbooted (forkInto_reach hfork) hin hprot).mpr
      ⟨Nat.pos_of_ne_zero (doWpPage_frame hwp), hlow, allocPage_spare.mp ⟨_, halloc⟩⟩⟩

/-- The grandchild shares the page that its parent was given, which lies above LOW_MEM: its write
never returns. -/
theorem grandchild_write_spins : ¬∀ (m₀ m : Machine) (addr : Nat), Booted m₀ → Reach Step m₀ m →
    InWindow (m.sched.task m.sched.current).pid addr → Protected m.ram.phys addr →
    Resolved m.ram addr := by
  intro hclaim
  obtain ⟨m₀, m₁, ram, m₂, hrun, hchild, hgrandchild⟩ := familyRun_ok
  simp only [familyRun, bind_eq_ok, pure_eq_ok, Except.ok.injEq, Prod.mk.injEq] at hrun
  obtain ⟨_, hboot, _, hfork, _, hwp, _, hfork', rfl, rfl, rfl, rfl⟩ := hrun
  obtain ⟨hin, hprot, -⟩ := entryAt_fault hchild rfl rfl
  obtain ⟨hin', hprot', hframe⟩ := entryAt_fault hgrandchild rfl rfl
  have hreach : Reach Step _ _ := (Relation.ReflTransGen.tail (forkInto_reach hfork)
    ⟨_, .writeFault hin hprot hwp⟩).trans (forkInto_reach hfork')
  obtain ⟨s', hret, -⟩ := hclaim _ _ _ (identityMachine_booted hboot) hreach hin' hprot'
  have hlow := (doWpPage_ok hret).1
  rw [hframe] at hlow
  exact absurd hlow (by decide)

end RxdOs.Kernel.WriteFault
