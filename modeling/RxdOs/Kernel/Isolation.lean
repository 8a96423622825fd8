/- RxdOs/Kernel/Isolation
   source: mm/memory.c (share_vma, do_no_page, do_wp_page), kernel/syscall_impl.c, boot/head.asm
   digest: What a task reads in its pages over all runs of forks, page faults and stores: its own
   stores on top of its parent's memory at the fork, while nobody stores into a shared page and
   fresh frames are empty. -/

import RxdOs.Lib.PrivateMemory
import RxdOs.Kernel.WriteFault

set_option autoImplicit false
set_option relaxedAutoImplicit false

namespace RxdOs.Kernel.Isolation

open RxdOs.Base.Assert RxdOs.Base.Int32 RxdOs.Lib.PrivateMemory RxdOs.Mm.Memory RxdOs.Mm.Paging
  RxdOs.Kernel.Proc RxdOs.Kernel.Scheduler RxdOs.Kernel.Fork RxdOs.Kernel.TaskWindow
  RxdOs.Kernel.WriteFault

/-! ## Address spaces -/

/-- The entry of the page table that an address goes through. -/
def pteIndex (vaddr : Nat) : Nat := vaddr / pageSize % 1024

/-- Entry `k` of the page table behind entry `i` of the directory. -/
def entry (phys : Phys) (i k : Nat) : Nat := word phys (tableOf phys i + 4 * k)

/-- A read of `addr` raises no fault. -/
structure Mapped (phys : Phys) (addr : Nat) : Prop where
  dir : pde phys (pdeIndex addr) ≠ 0
  present : present (pteOf phys addr) = true

/-- The byte that a read of `addr` gives. -/
def load (phys : Phys) (addr : Nat) : UInt8 := phys (pageAddr phys addr + addr % pageSize)

/-- The pages of a task: those below LOW_MEM in its first 4 MB but the page directory and video
memory, and those that do_no_page gives it.  What is left are the pages through which head.asm's
tables show every task the memory from LOW_MEM on.  The kernel's own variables lie in the pages
below LOW_MEM as well: what it writes to them is not part of the memory here, so reads of them are
left out. -/
def Private (i k : Nat) : Prop :=
  if i % 16 = 0 then 1 ≤ k ∧ k < 256 ∧ k ≠ videoEntry else 4 ≤ i

/-- `addr` lies in one of these pages. -/
def PrivateAt (addr : Nat) : Prop := Private (pdeIndex addr) (pteIndex addr)

/-! ## Runs -/

/-- What the kernel does for the current task, and what that task stores at an offset of its
window. -/
inductive Event
  | kernel (e : WriteFault.Event)
  | store (off : Nat) (v : UInt8)

def curPid (m : Machine) : Int := (m.sched.task m.sched.current).pid

/-- The linear address of an offset of the current task. -/
def curAddr (m : Machine) (off : Nat) : Nat := windowBase (curPid m) + off

def storeAt (phys : Phys) (addr : Nat) (v : UInt8) : Phys :=
  Function.update phys (pageAddr phys addr + addr % pageSize) v

/-- A store needs a page that may be written; other stores fault first. -/
inductive Step : Machine → Event → Machine → Prop
  | kernel {m m' : Machine} {e : WriteFault.Event} : WriteFault.Step m e m' → Step m (.kernel e) m'
  | store {m : Machine} {off : Nat} {v : UInt8} : off < windowSize →
      Mapped m.ram.phys (curAddr m off) → writable (pteOf m.ram.phys (curAddr m off)) = true →
      Step m (.store off v) { m with ram := { m.ram with
        phys := storeAt m.ram.phys (curAddr m off) v } }

/-- What an event means for the tasks' memories. -/
def act (m : Machine) : Event → Act Int Nat UInt8
  | .kernel (.task (.fork ..)) =>
    match getPid m.sched with
    | none => .other
    | some child => .spawn (curPid m) child.val
  | .kernel _ => .other
  | .store off v => .store (curPid m) off v

/-- The frame that do_no_page is going to supply holds zeros. -/
def SuppliesZeros (s : Ram) (addr : Nat) : Prop :=
  ∀ table s₁ page mem, tableFor s addr = .ok (table, s₁) → allocPage s₁.mem = .ok (page, mem) →
    ∀ r < pageSize, s.phys (page + r) = 0

/-- A store goes to a free frame, or to a page of a task whose frame no other page shares and
which is no page table. -/
def Exclusive (s : Ram) (addr : Nat) : Prop :=
  ¬InUse s (pageAddr s.phys addr) ∨
    PrivateAt addr ∧ (∀ i < 1024, pde s.phys i ≠ 0 → tableOf s.phys i ≠ pageAddr s.phys addr) ∧
      ∀ i < 1024, ∀ k < 1024, Private i k → pde s.phys i ≠ 0 → present (entry s.phys i k) = true →
        frameOf (entry s.phys i k) = pageAddr s.phys addr → i = pdeIndex addr ∧ k = pteIndex addr

/-- The steps that keep the tasks apart. -/
def Kept (m : Machine) : Event → Prop
  | .kernel (.task (.fault addr)) => SuppliesZeros m.ram addr
  | .kernel _ => True
  | .store off _ => Exclusive m.ram (curAddr m off)

/-- A run whose steps all meet `cond`, with its acts, latest first. -/
inductive Run (cond : Machine → Event → Prop) (m₀ : Machine) :
    List (Act Int Nat UInt8) → Machine → Prop
  | nil : Run cond m₀ [] m₀
  | cons {acts : List (Act Int Nat UInt8)} {m m' : Machine} {e : Event} :
      Run cond m₀ acts m → Step m e m' → cond m e → Run cond m₀ (act m e :: acts) m'

/-- The machine after sched_init, with the page tables of head.asm. -/
structure Started (m : Machine) : Prop where
  booted : Booted m
  identity : ∀ i < 4, ∀ k < 1024, entry m.ram.phys i k = (1024 * i + k) * pageSize + 7

/-- A child starts with the first 4 MB of its parent. -/
def inherit (mem : Nat → UInt8) : Nat → UInt8 := fun off => if off < 2 ^ 22 then mem off else 0

/-- Init starts with the memory below LOW_MEM. -/
def bootMemory (m : Machine) : Int → Nat → UInt8 := fun pid off =>
  if pid = 0 ∧ pageSize ≤ off ∧ off < lowMem then m.ram.phys off else 0

/-! ## Entries -/

section Entries

variable {phys phys' : Phys} {addr i k : Nat}

theorem pteIndex_lt (addr : Nat) : pteIndex addr < 1024 := Nat.mod_lt _ (by decide)

theorem pteAddr_eq_entry (phys : Phys) (addr : Nat) :
    pteAddr phys addr = tableOf phys (pdeIndex addr) + 4 * pteIndex addr := by
  rw [pteAddr_eq, pteIndex, Nat.mul_comm]

theorem pteOf_eq (phys : Phys) (addr : Nat) :
    pteOf phys addr = entry phys (pdeIndex addr) (pteIndex addr) := by
  rw [pteOf, pteAddr_eq_entry, entry]

theorem pageAddr_eq (phys : Phys) (addr : Nat) :
    pageAddr phys addr = frameOf (entry phys (pdeIndex addr) (pteIndex addr)) :=
  congrArg frameOf (pteOf_eq phys addr)

/-- An entry stays when the one of the directory does and its own bytes do. -/
theorem entry_congr (hdir : pde phys' i = pde phys i)
    (h : ∀ x, tableOf phys i + 4 * k ≤ x → x < tableOf phys i + 4 * k + 4 → phys' x = phys x) :
    entry phys' i k = entry phys i k := by
  rw [entry, entry, tableOf, hdir]
  exact word_congr h

/-- Where an offset of a window leads. -/
theorem index_of_offset (p : Fin nrTask) (off : Nat) :
    pdeIndex (windowBase p.val + off) = 16 * p.val + off / 2 ^ 22 ∧
      pteIndex (windowBase p.val + off) = off / pageSize % 1024 ∧
      (windowBase p.val + off) % pageSize = off % pageSize := by
  rw [windowBase_eq, windowSize]
  simp only [pdeIndex, pteIndex, pageSize]
  omega

end Entries

/-! ## Frames -/

/-- A frame in use that is not the page directory, and no table but one of head.asm's. -/
structure Plain (s : Ram) (frame : Nat) : Prop where
  directory : pageSize ≤ frame
  inUse : InUse s frame
  notTable : lowMem ≤ frame → ∀ i < 1024, pde s.phys i ≠ 0 → tableOf s.phys i ≠ frame

/-- What do_fork and the page faults leave alone: frames in use, entries of the directory, and the
bytes of plain frames. -/
structure Grows (s s' : Ram) : Prop where
  used : ∀ k, s.mem.memMap k ≠ 0 → s'.mem.memMap k ≠ 0
  dir : ∀ i < 1024, pde s'.phys i = pde s.phys i ∨
    pde s.phys i = 0 ∧ 4 ≤ i ∧ lowMem ≤ tableOf s'.phys i ∧ ¬InUse s (tableOf s'.phys i)
  bytes : ∀ frame, Plain s frame → frame % pageSize = 0 → ∀ r < pageSize,
    s'.phys (frame + r) = s.phys (frame + r)

section Frames

variable {s s' : Ram} {frame page i k : Nat} {mem : Mem}

theorem tableOf_mod (phys : Phys) (i : Nat) : tableOf phys i % pageSize = 0 := frameOf_mod _

/-- A table that was not there before is not a plain frame. -/
theorem Grows.plain (h : Grows s s') (hp : Plain s frame) : Plain s' frame := by
  refine ⟨hp.directory, hp.inUse.mono h.used, fun hlow i hi hne => ?_⟩
  rcases h.dir i hi with heq | ⟨-, -, -, hfree⟩
  · rw [heq] at hne
    rw [tableOf, heq]
    exact hp.notTable hlow i hi hne
  · exact fun heq => hfree (heq ▸ hp.inUse)

/-- A frame of alloc_page. -/
structure Fresh (s : Ram) (page : Nat) : Prop where
  low : lowMem ≤ page
  aligned : page % pageSize = 0
  free : ¬InUse s page

theorem fresh_alloc (halloc : allocPage s.mem = .ok (page, mem)) : Fresh s page := by
  obtain ⟨k, -, rfl, -, -⟩ := allocPage_ok halloc
  refine ⟨Nat.le_add_right _ _, ?_, fun huse => huse.ne_alloc halloc rfl⟩
  rw [page_eq]
  exact Nat.mul_mod_left ..

theorem inUse_alloc (halloc : allocPage s.mem = .ok (page, mem)) {phys : Phys} :
    InUse ⟨mem, phys⟩ page := by
  obtain ⟨k, hk, hpage, -, rfl⟩ := allocPage_ok halloc
  refine .inr ⟨k, hk, hpage, ?_⟩
  show Function.update s.mem.memMap k 1 k ≠ 0
  rw [Function.update_self]
  decide

/-- A frame in use and a fresh one have no byte in common. -/
theorem Fresh.apart (h : Fresh s page) (huse : InUse s frame) (hmod : frame % pageSize = 0) :
    frame + pageSize ≤ page ∨ page + pageSize ≤ frame := by
  refine frames_apart hmod h.aligned fun heq => h.free (heq ▸ huse)

/-- An entry of a table and a plain frame have no byte in common, unless the table is one of
head.asm's. -/
theorem Plain.apart (hp : Plain s frame) (hmod : frame % pageSize = 0) (hi : i < 1024)
    (hne : pde s.phys i ≠ 0) (hlow : lowMem ≤ tableOf s.phys i) :
    frame + pageSize ≤ tableOf s.phys i ∨ tableOf s.phys i + pageSize ≤ frame := by
  refine frames_apart hmod (tableOf_mod _ _) fun heq => ?_
  exact hp.notTable (heq ▸ hlow) i hi hne heq.symm

end Frames

/-! ## share_vma -/

section Share

variable {s s' : Ram} {fromAddr toAddr size : Nat}

/-- share_vma touches the entry of the directory it makes and the new table, and fills the table
with the protected entries of the other. -/
theorem shareVma_spec (ht : Tables s) (hfrom : pdeIndex fromAddr < 1024)
    (hto : pdeIndex toAddr < 1024) (hne : pde s.phys (pdeIndex fromAddr) ≠ 0)
    (h : shareVma s fromAddr toAddr size = .ok s') :
    pde s.phys (pdeIndex toAddr) = 0 ∧ ∃ page, allocPage s.mem = .ok (page, s'.mem) ∧
      pde s'.phys (pdeIndex toAddr) ≠ 0 ∧ tableOf s'.phys (pdeIndex toAddr) = page ∧
      (∀ i < 1024, i ≠ pdeIndex toAddr → pde s'.phys i = pde s.phys i) ∧
      (∀ x, pageSize ≤ x → (x < page ∨ page + pageSize ≤ x) → s'.phys x = s.phys x) ∧
      ∀ k < 1024, k ≠ videoEntry → entry s'.phys (pdeIndex toAddr) k =
        protectEntry (entry s.phys (pdeIndex fromAddr) k) := by
  obtain ⟨hzero, page, halloc, hpde⟩ := shareVma_pde hto h
  obtain ⟨-, page', phys₁, phys₂, halloc', h₁, h₂, h'⟩ := shareVma_ok h
  obtain ⟨rfl, -⟩ := Prod.mk.inj (Except.ok.inj (halloc.symm.trans halloc'))
  obtain ⟨hpage, hlt, hframe⟩ := pageSize_le_alloc halloc
  obtain ⟨hfromTable, hfromUse⟩ := ht.inUse _ hfrom hne
  have hfresh := fresh_alloc halloc
  have hapart := hfresh.apart hfromUse (tableOf_mod _ _)
  have hdirs : pdeIndex toAddr * 4 + 4 ≤ pageSize := by
    simp only [pageSize]
    omega
  -- the directory's page, then the new table
  have hphys₁ : ∀ x, pageSize ≤ x → phys₁ x = s.phys x := by
    intro x hx
    rw [h₁, pdeAddr_eq]
    exact poke_of_le (by omega)
  have hto₁ : frameOf (word phys₁ (pdeAddr toAddr)) = page := by
    rw [h₁, word_poke_self (entryOf_lt hlt), frameOf_entryOf, hframe]
  have hfrom₁ : frameOf (word phys₁ (pdeAddr fromAddr)) = tableOf s.phys (pdeIndex fromAddr) := by
    have hother : pdeIndex fromAddr ≠ pdeIndex toAddr := fun heq => hne (heq ▸ hzero)
    rw [h₁, tableOf, pde, pdeAddr_eq, pdeAddr_eq, word_poke_of_disjoint (by omega)]
  rw [hto₁, hfrom₁] at h₂
  have hto₂ : frameOf (word phys₂ (pdeAddr toAddr)) = page := by
    have hkeep : word phys₂ (pdeAddr toAddr) = word phys₁ (pdeAddr toAddr) := by
      apply word_congr
      intro x hx hx'
      rw [h₂, pdeAddr_eq] at *
      exact copyTable_of_not_mem (.inl (by omega))
    rw [hkeep, hto₁]
  rw [hto₂] at h'
  have hvideo : 4 * videoEntry + 4 ≤ pageSize := by decide
  have hto' : tableOf s'.phys (pdeIndex toAddr) = page := by
    rw [tableOf, hpde _ hto, if_pos rfl, frameOf_entryOf, hframe]
  refine ⟨hzero, page, halloc, fun hnone => ?_, hto', fun i hi hit => ?_, fun x hx hx' => ?_,
    fun k hk hkv => ?_⟩
  · rw [hpde _ hto, if_pos rfl, entryOf] at hnone
    omega
  · rw [hpde i hi, if_neg hit]
  · have hout : x < page ∨ page + 4 * 1024 ≤ x := hx'
    rw [h', poke_of_not_mem (by omega), h₂, copyTable_of_not_mem hout, hphys₁ x hx]
  · have hcopy := @word_copyTable phys₁ (tableOf s.phys (pdeIndex fromAddr)) page 1024
      (by simp only [pageSize] at *; omega) k hk
    have hsource : word phys₁ (tableOf s.phys (pdeIndex fromAddr) + 4 * k) =
        entry s.phys (pdeIndex fromAddr) k :=
      word_congr fun x hx _ => hphys₁ x (hfromTable.trans (by omega))
    rw [entry, hto', h', word_poke_of_disjoint (by omega), h₂, hcopy, hsource]

theorem shareVma_grows (ht : Tables s) (hfrom : pdeIndex fromAddr < 1024)
    (hto : pdeIndex toAddr < 1024) (hne : pde s.phys (pdeIndex fromAddr) ≠ 0)
    (hhigh : 4 ≤ pdeIndex toAddr) (h : shareVma s fromAddr toAddr size = .ok s') : Grows s s' := by
  obtain ⟨hzero, page, halloc, -, htable, hdir, hbytes, -⟩ := shareVma_spec ht hfrom hto hne h
  have hfresh := fresh_alloc halloc
  refine ⟨fun k hk => allocPage_used halloc hk, fun i hi => ?_, fun frame hp hmod r hr => ?_⟩
  · by_cases hit : i = pdeIndex toAddr
    · subst hit
      rw [htable]
      exact .inr ⟨hzero, hhigh, hfresh.low, hfresh.free⟩
    · exact .inl (hdir i hi hit)
  · have hle := hp.directory
    have hapart := hfresh.apart hp.inUse hmod
    exact hbytes _ (by omega) (by omega)

end Share

/-! ## do_no_page -/

/-- do_no_page has put a fresh frame behind an entry that was empty; where there was no table, it
has made one with nothing else in it. -/
structure Supplied (s s' : Ram) (addr page : Nat) : Prop where
  fresh : Fresh s page
  inUse : InUse s' page
  used : ∀ k, s.mem.memMap k ≠ 0 → s'.mem.memMap k ≠ 0
  dir : ∀ i < 1024, i ≠ pdeIndex addr → pde s'.phys i = pde s.phys i
  table : pde s.phys (pdeIndex addr) ≠ 0 ∧
        pde s'.phys (pdeIndex addr) = pde s.phys (pdeIndex addr) ∧
        entry s.phys (pdeIndex addr) (pteIndex addr) = 0 ∨
      pde s.phys (pdeIndex addr) = 0 ∧ Fresh s (tableOf s'.phys (pdeIndex addr)) ∧
        ∀ k < 1024, k ≠ pteIndex addr → entry s'.phys (pdeIndex addr) k = 0
  present : pde s'.phys (pdeIndex addr) ≠ 0
  apart : tableOf s'.phys (pdeIndex addr) ≠ page
  supplied : entry s'.phys (pdeIndex addr) (pteIndex addr) = entryOf page
  bytes : ∀ x, pageSize ≤ x → (x < tableOf s'.phys (pdeIndex addr) ∨
    tableOf s'.phys (pdeIndex addr) + pageSize ≤ x) → s'.phys x = s.phys x
  others : pde s.phys (pdeIndex addr) ≠ 0 → ∀ k < 1024, k ≠ pteIndex addr →
    entry s'.phys (pdeIndex addr) k = entry s.phys (pdeIndex addr) k

section NoPage

variable {s s' : Ram} {addr page : Nat}

/-- The last step of do_no_page: a poke of the entry in its table. -/
theorem entry_poke {phys phys' : Phys} {i k : Nat} (hdir : pde phys' i = pde phys i)
    (hlt : page < 2 ^ 32)
    (hphys : phys' = poke phys (tableOf phys i + 4 * k) (entryOf page)) :
    entry phys' i k = entryOf page ∧ ∀ j, j ≠ k → entry phys' i j = entry phys i j := by
  constructor
  · rw [entry, tableOf, hdir, hphys]
    exact word_poke_self (entryOf_lt hlt)
  · intro j hj
    refine entry_congr hdir fun x hx hx' => ?_
    rw [hphys]
    apply poke_of_not_mem
    omega

theorem doNoPage_supplied (ht : Tables s) (haddr : pdeIndex addr < 1024)
    (h : doNoPage s addr = .ok s') : ∃ table s₁ page, tableFor s addr = .ok (table, s₁) ∧
      allocPage s₁.mem = .ok (page, s'.mem) ∧ Supplied s s' addr page := by
  obtain ⟨table, s₁, page, htab, hempty, halloc, hphys⟩ := doNoPage_ok h
  refine ⟨table, s₁, page, htab, halloc, ?_⟩
  obtain ⟨hple, hplt, hpframe⟩ := pageSize_le_alloc halloc
  have hk : addr / pageSize % 1024 * 4 = 4 * pteIndex addr := Nat.mul_comm _ _
  have hklt := pteIndex_lt addr
  rw [hk] at hempty hphys
  rcases tableFor_ok htab with ⟨hp, rfl, rfl⟩ | ⟨hp, halloc₁, hphys₁⟩
  · -- the table is there
    rw [pdeAddr_eq] at hp hempty hphys
    have hne : pde s₁.phys (pdeIndex addr) ≠ 0 := fun hzero => by
      rw [show word s₁.phys (4 * pdeIndex addr) = 0 from hzero] at hp
      cases hp
    obtain ⟨hle, huse⟩ := ht.inUse _ haddr hne
    have hfresh := fresh_alloc halloc
    have hdir : ∀ i < 1024, pde s'.phys i = pde s₁.phys i := fun i hi => by
      rw [hphys]
      exact pde_poke_of_le hi (hle.trans (Nat.le_add_right _ _))
    obtain ⟨hself, hothers⟩ := entry_poke (hdir _ haddr) hplt hphys
    have htable : tableOf s'.phys (pdeIndex addr) = tableOf s₁.phys (pdeIndex addr) := by
      rw [tableOf, hdir _ haddr, tableOf]
    refine ⟨hfresh, inUse_alloc halloc, fun k hk => allocPage_used halloc hk,
      fun i hi _ => hdir i hi, .inl ⟨hne, hdir _ haddr, hempty⟩, ?_, ?_, hself, fun x hx hx' => ?_,
      fun _ k _ hkne => hothers k hkne⟩
    · rw [hdir _ haddr]
      exact hne
    · rw [htable]
      exact fun heq => hfresh.free (heq ▸ huse)
    · rw [htable] at hx'
      have hin : 4 * pteIndex addr + 4 ≤ pageSize := by
        simp only [pageSize]
        omega
      rw [hphys]
      apply poke_of_not_mem
      change x < tableOf s₁.phys _ + _ ∨ tableOf s₁.phys _ + _ + _ ≤ x
      omega
  · -- a new table
    rw [pdeAddr_eq] at hp
    have hzero : pde s.phys (pdeIndex addr) = 0 := by
      by_contra hne
      rw [show word s.phys (4 * pdeIndex addr) = pde s.phys (pdeIndex addr) from rfl,
        ht.present _ haddr hne] at hp
      cases hp
    obtain ⟨hle, hlt, hframe⟩ := pageSize_le_alloc halloc₁
    have hfresh₁ := fresh_alloc halloc₁
    have hfresh := fresh_alloc halloc
    have hdir₁ : ∀ i < 1024, pde s₁.phys i =
        if i = pdeIndex addr then entryOf table else pde s.phys i := fun i hi => by
      rw [hphys₁, pdeAddr_eq, pde_poke i (entryOf_lt hlt)]
      congr 1
      exact pde_congr hi fun x hx => zeroPage_of_not_mem (.inl (hx.trans_le hle))
    have htable₁ : tableOf s₁.phys (pdeIndex addr) = table := by
      rw [tableOf, hdir₁ _ haddr, if_pos rfl, frameOf_entryOf, hframe]
    have hdir : ∀ i < 1024, pde s'.phys i = pde s₁.phys i := fun i hi => by
      rw [hphys]
      exact pde_poke_of_le hi (hle.trans (Nat.le_add_right _ _))
    have htable : tableOf s'.phys (pdeIndex addr) = table := by
      rw [tableOf, hdir _ haddr, ← htable₁, tableOf]
    rw [← htable₁] at hphys
    obtain ⟨hself, hothers⟩ := entry_poke (hdir _ haddr) hplt hphys
    have hin : 4 * pteIndex addr + 4 ≤ pageSize := by
      simp only [pageSize]
      omega
    have hdirs : pdeIndex addr * 4 + 4 ≤ pageSize := by
      simp only [pageSize]
      omega
    have hbytes₁ : ∀ x, pageSize ≤ x → s₁.phys x = zeroPage s.phys table x := fun x hx => by
      rw [hphys₁, pdeAddr_eq]
      exact poke_of_le (by omega)
    have hempty₁ : ∀ k < 1024, entry s₁.phys (pdeIndex addr) k = 0 := by
      intro k hk
      have hword : word s₁.phys (table + 4 * k) = word (fun _ => 0) (table + 4 * k) := by
        refine word_congr fun x hx hx' => ?_
        rw [hbytes₁ x (hle.trans (by omega)), zeroPage, if_pos]
        simp only [pageSize]
        omega
      rw [entry, htable₁, hword]
      rfl
    have hfreshS : Fresh s page := by
      refine ⟨hfresh.low, hfresh.aligned, fun huse => hfresh.free ?_⟩
      exact huse.mono fun k hk => allocPage_used halloc₁ hk
    refine ⟨hfreshS, inUse_alloc halloc,
      fun k hk => allocPage_used halloc (allocPage_used halloc₁ hk), fun i hi hit => ?_,
      .inr ⟨hzero, ?_, fun k hk hkne => ?_⟩, fun hnone => ?_, ?_, hself, fun x hx hx' => ?_,
      fun hne => absurd hzero hne⟩
    · rw [hdir i hi, hdir₁ i hi, if_neg hit]
    · rw [htable]
      exact hfresh₁
    · rw [hothers k hkne, hempty₁ k hk]
    · rw [hdir _ haddr, hdir₁ _ haddr, if_pos rfl] at hnone
      simp only [entryOf] at hnone
      omega
    · rw [htable]
      rintro rfl
      refine hfresh.free ?_
      exact inUse_alloc halloc₁
    · rw [htable] at hx'
      rw [hphys, poke_of_not_mem (by rw [htable₁]; omega), hbytes₁ x hx]
      exact zeroPage_of_not_mem hx'

theorem Supplied.grows (h : Supplied s s' addr page) (haddr : pdeIndex addr < 1024)
    (hhigh : 4 ≤ pdeIndex addr)
    (hlow : pde s.phys (pdeIndex addr) ≠ 0 → lowMem ≤ tableOf s.phys (pdeIndex addr)) :
    Grows s s' := by
  refine ⟨h.used, fun i hi => ?_, fun frame hp hmod r hr => ?_⟩
  · by_cases hia : i = pdeIndex addr
    · subst hia
      rcases h.table with ⟨-, hsame, -⟩ | ⟨hzero, hfresh, -⟩
      · exact .inl hsame
      · exact .inr ⟨hzero, hhigh, hfresh.low, hfresh.free⟩
    · exact .inl (h.dir i hi hia)
  · have hle := hp.directory
    have hapart : frame + pageSize ≤ tableOf s'.phys (pdeIndex addr) ∨
        tableOf s'.phys (pdeIndex addr) + pageSize ≤ frame := by
      rcases h.table with ⟨hne, hsame, -⟩ | ⟨-, hfresh, -⟩
      · rw [tableOf, hsame]
        exact hp.apart hmod haddr hne (hlow hne)
      · exact hfresh.apart hp.inUse hmod
    exact h.bytes _ (by omega) (by omega)

end NoPage

/-! ## do_wp_page -/

/-- do_wp_page has put a copy of the page behind its entry. -/
structure Copied (s s' : Ram) (addr page : Nat) : Prop where
  fresh : Fresh s page
  inUse : InUse s' page
  dir : ∀ i < 1024, pde s'.phys i = pde s.phys i
  copied : entry s'.phys (pdeIndex addr) (pteIndex addr) = entryOf page
  others : ∀ i < 1024, ∀ k < 1024, pde s.phys i ≠ 0 → (i ≠ pdeIndex addr ∨ k ≠ pteIndex addr) →
    entry s'.phys i k = entry s.phys i k
  contents : ∀ r < pageSize, s'.phys (page + r) = s.phys (pageAddr s.phys addr + r)

section WpPage

variable {s s' : Ram} {addr page : Nat}

/-- The entry that the page of an entry goes through. -/
theorem page_index {i k : Nat} (hk : k < 1024) :
    pdeIndex ((1024 * i + k) * pageSize) = i ∧ pteIndex ((1024 * i + k) * pageSize) = k := by
  simp only [pdeIndex, pteIndex, pageSize]
  omega

theorem doWpPage_copied (ht : Tables s) (haddr : pdeIndex addr < 1024)
    (hprot : Protected s.phys addr) (hlow : lowMem ≤ tableOf s.phys (pdeIndex addr))
    (h : doWpPage s addr = .ok s') : ∃ page, Copied s s' addr page ∧ Grows s s' := by
  obtain ⟨-, page, halloc, hphys⟩ := doWpPage_ok h
  have hsolved : Solved s s' addr := ht.solved haddr hprot halloc hphys
  obtain ⟨hle, hlt, hframe⟩ := pageSize_le_alloc halloc
  have hfresh := fresh_alloc halloc
  have hpte := pteAddr_eq_entry s.phys addr
  have hklt := pteIndex_lt addr
  have hentry : entry s'.phys (pdeIndex addr) (pteIndex addr) = entryOf page := by
    rw [entry, tableOf, hsolved.directory _ haddr, ← tableOf, ← hpte, hphys]
    exact word_poke_self (entryOf_lt hlt)
  refine ⟨page, ⟨hfresh, inUse_alloc halloc, hsolved.directory, hentry,
    fun i hi k hk hne hother => ?_, fun r hr => ?_⟩, fun k hk => allocPage_used halloc hk,
    fun i hi => .inl (hsolved.directory i hi), fun frame hp hmod r hr => ?_⟩
  · obtain ⟨hidx, hkidx⟩ := @page_index i k hk
    have hsame := hsolved.mapping ((1024 * i + k) * pageSize) (hidx.symm ▸ hi) (hidx.symm ▸ hne) ?_
    · rwa [pteOf_eq, pteOf_eq, hidx, hkidx] at hsame
    · intro heq
      simp only [pdeIndex, pteIndex, pageSize] at *
      omega
  · have hnew : pageAddr s'.phys addr = page := by
      rw [pageAddr_eq, hentry, frameOf_entryOf, hframe]
    rw [← hnew]
    exact hsolved.contents r hr
  · have hapart := hfresh.apart hp.inUse hmod
    have htable := hp.apart hmod haddr hprot.dir hlow
    have hin : 4 * pteIndex addr + 4 ≤ pageSize := by
      simp only [pageSize]
      omega
    rw [hphys, poke_of_not_mem (by rw [hpte]; omega), copyPage_of_not_mem (by omega)]

end WpPage

/-! ## The invariant -/

/-- Of the machine: head.asm's tables are as they were, the other ones lie above, and the pages of
the tasks have plain frames. -/
structure Inv (m : Machine) : Prop where
  base : WriteFault.Inv m
  boot : ∀ i < 4, pde m.ram.phys i ≠ 0
  identity : ∀ i < 4, ∀ k < 1024, entry m.ram.phys i k = (1024 * i + k) * pageSize + 7
  high : ∀ i < 1024, 4 ≤ i → pde m.ram.phys i ≠ 0 → lowMem ≤ tableOf m.ram.phys i
  plain : ∀ i < 1024, ∀ k < 1024, Private i k → pde m.ram.phys i ≠ 0 →
    present (entry m.ram.phys i k) = true → Plain m.ram (frameOf (entry m.ram.phys i k))
  home : ∀ p : Fin nrTask, m.sched.table p ≠ none → pde m.ram.phys (16 * p.val) ≠ 0

/-- The pages of the tasks show these memories; what is not mapped holds zeros. -/
def Shows (m : Machine) (mem : Int → Nat → UInt8) : Prop :=
  ∀ p : Fin nrTask, m.sched.table p ≠ none → ∀ off < windowSize,
    PrivateAt (windowBase p.val + off) →
      (Mapped m.ram.phys (windowBase p.val + off) →
        load m.ram.phys (windowBase p.val + off) = mem p.val off) ∧
      (¬Mapped m.ram.phys (windowBase p.val + off) → mem p.val off = 0)

section Invariant

variable {m m' : Machine} {ram : Ram} {addr i k : Nat}

theorem mapped_iff (phys : Phys) (addr : Nat) : Mapped phys addr ↔ pde phys (pdeIndex addr) ≠ 0 ∧
    present (entry phys (pdeIndex addr) (pteIndex addr)) = true := by
  rw [← pteOf_eq]
  exact ⟨fun h => ⟨h.dir, h.present⟩, fun h => ⟨h.1, h.2⟩⟩

theorem index_lt_of_offset (p : Fin nrTask) {off : Nat} (hoff : off < windowSize) :
    pdeIndex (windowBase p.val + off) < 1024 ∧ pdeIndex (windowBase p.val + off) / 16 = p.val := by
  have hp : p.val < 64 := p.isLt
  rw [windowSize] at hoff
  rw [(index_of_offset p off).1]
  omega

/-- The current task is the one of its pid. -/
theorem Inv.current (h : Inv m) : ∃ c : Fin nrTask, m.sched.table c = some m.sched.current ∧
    curPid m = c.val := by
  obtain ⟨c, hc⟩ := h.base.windows.placed.tabled.current
  exact ⟨c, hc, h.base.windows.placed.tabled.pid c _ hc⟩

/-- Init never goes. -/
theorem Inv.zero_live (h : Inv m) : m.sched.table 0 ≠ none := by
  obtain ⟨p, hp, hcovers⟩ := h.base.windows.mapped.live 0 (by decide) (h.boot 0 (by decide))
  rw [covers_iff] at hcovers
  have hzero : p = 0 := Fin.ext hcovers.symm
  exact hzero ▸ hp

/-- An entry that did not change still has its plain frame. -/
theorem Inv.grow (h : Inv m) (hbase : WriteFault.Inv m') (hg : Grows m.ram m'.ram)
    (hid : ∀ i < 4, ∀ k < 1024, entry m'.ram.phys i k = entry m.ram.phys i k)
    (hplain : ∀ i < 1024, ∀ k < 1024, Private i k → pde m'.ram.phys i ≠ 0 →
      present (entry m'.ram.phys i k) = true →
        pde m.ram.phys i ≠ 0 ∧ entry m'.ram.phys i k = entry m.ram.phys i k ∨
          Plain m'.ram (frameOf (entry m'.ram.phys i k)))
    (hhome : ∀ p : Fin nrTask, m'.sched.table p ≠ none →
      m.sched.table p ≠ none ∨ pde m'.ram.phys (16 * p.val) ≠ 0) : Inv m' := by
  have hkeep : ∀ i < 1024, pde m.ram.phys i ≠ 0 → pde m'.ram.phys i = pde m.ram.phys i :=
    fun i hi hne => (hg.dir i hi).resolve_right fun hr => hne hr.1
  refine ⟨hbase, fun i hi => ?_, fun i hi k hk => ?_, fun i hi hhigh hne => ?_,
    fun i hi k hk hpriv hne hpres => ?_, fun p hp => ?_⟩
  · rw [hkeep i (by omega) (h.boot i hi)]
    exact h.boot i hi
  · rw [hid i hi k hk]
    exact h.identity i hi k hk
  · rcases hg.dir i hi with heq | ⟨-, -, hlow, -⟩
    · rw [heq] at hne
      rw [tableOf, heq]
      exact h.high i hi hhigh hne
    · exact hlow
  · rcases hplain i hi k hk hpriv hne hpres with ⟨hne', heq⟩ | hnew
    · rw [heq] at hpres ⊢
      exact hg.plain (h.plain i hi k hk hpriv hne' hpres)
    · exact hnew
  · have hlt : p.val < 64 := p.isLt
    rcases hhome p hp with hlive | hne
    · rw [hkeep _ (by omega) (h.home p hlive)]
      exact h.home p hlive
    · exact hne

/-- An address whose entry did not change shows what it showed. -/
theorem Inv.same (h : Inv m) (hg : Grows m.ram ram) (hi : pdeIndex addr < 1024)
    (hpriv : PrivateAt addr) (hdir : pde ram.phys (pdeIndex addr) = pde m.ram.phys (pdeIndex addr))
    (hentry : pde m.ram.phys (pdeIndex addr) ≠ 0 → entry ram.phys (pdeIndex addr) (pteIndex addr) =
      entry m.ram.phys (pdeIndex addr) (pteIndex addr)) :
    (Mapped ram.phys addr ↔ Mapped m.ram.phys addr) ∧
      (Mapped m.ram.phys addr → load ram.phys addr = load m.ram.phys addr) := by
  rw [mapped_iff, mapped_iff, hdir]
  refine ⟨and_congr_right fun hne => by rw [hentry hne], fun ⟨hne, hpres⟩ => ?_⟩
  have hplain := h.plain _ hi _ (pteIndex_lt addr) hpriv hne hpres
  have hr : addr % pageSize < pageSize := Nat.mod_lt _ (by decide)
  rw [load, load, pageAddr_eq, pageAddr_eq, hentry hne]
  exact hg.bytes _ hplain (frameOf_mod _) _ hr

/-! ## Steps -/

variable {esp fuel : Nat} {start : Int → Nat → UInt8} {acts : List (Act Int Nat UInt8)}
  {mem : Int → Nat → UInt8}

/-- `Shows` for an address whose entry did not change. -/
theorem Shows.keep (hshow : Shows m mem) (h : Inv m) (hg : Grows m.ram m'.ram) {p : Fin nrTask}
    (hlive : m.sched.table p ≠ none) {off : Nat} (hoff : off < windowSize)
    (hpriv : PrivateAt (windowBase p.val + off))
    (hdir : pde m'.ram.phys (pdeIndex (windowBase p.val + off)) =
      pde m.ram.phys (pdeIndex (windowBase p.val + off)))
    (hentry : pde m.ram.phys (pdeIndex (windowBase p.val + off)) ≠ 0 →
      entry m'.ram.phys (pdeIndex (windowBase p.val + off)) (pteIndex (windowBase p.val + off)) =
        entry m.ram.phys (pdeIndex (windowBase p.val + off))
          (pteIndex (windowBase p.val + off))) :
    (Mapped m'.ram.phys (windowBase p.val + off) →
      load m'.ram.phys (windowBase p.val + off) = mem p.val off) ∧
      (¬Mapped m'.ram.phys (windowBase p.val + off) → mem p.val off = 0) := by
  obtain ⟨hmapped, hload⟩ := h.same hg (index_lt_of_offset p hoff).1 hpriv hdir hentry
  obtain ⟨hyes, hno⟩ := hshow p hlive off hoff hpriv
  rw [hmapped]
  exact ⟨fun hmap => (hload hmap).trans (hyes hmap), hno⟩

/-- The tables that were there keep their entries when share_vma makes a new one. -/
theorem share_entries (ht : Tables m.ram) {fromAddr toAddr size : Nat} {s s' : Ram}
    (hs : s.phys = m.ram.phys) (hmem : ∀ k, m.ram.mem.memMap k ≠ 0 → s.mem.memMap k ≠ 0)
    (hfrom : pdeIndex fromAddr < 1024) (hto : pdeIndex toAddr < 1024)
    (hne : pde m.ram.phys (pdeIndex fromAddr) ≠ 0) (h : shareVma s fromAddr toAddr size = .ok s')
    (hi : i < 1024) (hit : i ≠ pdeIndex toAddr) (hi0 : pde m.ram.phys i ≠ 0) (hk : k < 1024) :
    entry s'.phys i k = entry m.ram.phys i k := by
  have hts : Tables s := ht.keep (fun _ _ => by rw [hs]) hmem
  rw [← hs] at hne hi0 ⊢
  obtain ⟨-, page, halloc, -, -, hdir, hbytes, -⟩ := shareVma_spec hts hfrom hto hne h
  obtain ⟨hle, huse⟩ := hts.inUse i hi hi0
  have hapart := (fresh_alloc halloc).apart huse (tableOf_mod _ _)
  refine entry_congr (hdir i hi hit) fun x hx hx' => hbytes x (by omega) ?_
  simp only [pageSize] at *
  omega

theorem Inv.fork (h : Inv m) (hfork : doFork m esp fuel = .ok m') : Inv m' ∧
    (Shows m (memories inherit start acts) →
      Shows m' (memories inherit start (act m (.kernel (.task (.fork esp fuel))) :: acts))) := by
  have hbase : WriteFault.Inv m' := h.base.step (.task (.fork hfork))
  rcases doFork_child h.base.windows hfork with ⟨hnone, rfl⟩ |
    ⟨pid, page, memory, s₁, hpid, halloc, hfresh, hf, hsched, hshare⟩
  · refine ⟨⟨hbase, h.boot, h.identity, h.high, h.plain, h.home⟩, fun hshow => ?_⟩
    rw [act, hnone]
    exact hshow
  obtain ⟨c, hc, hcur⟩ := h.current
  have hcpid : c ≠ pid := fun heq => by
    rw [heq, hf.free] at hc
    cases hc
  have hzero : pid ≠ 0 := fun heq => h.zero_live (heq ▸ hf.free)
  have hpos : 0 < pid.val := Nat.pos_of_ne_zero fun hz => hzero (Fin.ext hz)
  have hplt : pid.val < 64 := pid.isLt
  have hclt : c.val < 64 := c.isLt
  change shareVma _ (windowBase (curPid m)) _ _ = _ at hshare
  rw [hcur] at hshare
  have hfrom : pdeIndex (windowBase c.val) = 16 * c.val := pdeIndex_windowBase c
  have hto : pdeIndex (windowBase pid.val) = 16 * pid.val := pdeIndex_windowBase pid
  set s : Ram := { m.ram with mem := memory } with hs
  have hused : ∀ k, m.ram.mem.memMap k ≠ 0 → s.mem.memMap k ≠ 0 := fun k hk =>
    allocPage_used halloc hk
  have hts : Tables s := h.base.tables.keep (fun _ _ => rfl) hused
  have hhome : pde m.ram.phys (16 * c.val) ≠ 0 := h.home c (by rw [hc]; exact Option.some_ne_none _)
  have hne : pde s.phys (pdeIndex (windowBase c.val)) ≠ 0 := by
    rw [hfrom]
    exact hhome
  have hspec := shareVma_spec hts (by omega) (by omega) hne hshare
  have hgrow := shareVma_grows hts (by omega) (by omega) hne (by omega) hshare
  -- the child's own page only takes a frame
  have hg : Grows m.ram m'.ram := by
    have hplain : ∀ frame, Plain m.ram frame → Plain s frame := fun frame hp =>
      ⟨hp.directory, hp.inUse.mono hused, hp.notTable⟩
    refine ⟨fun k hk => hgrow.used k (hused k hk), fun i hi => ?_,
      fun frame hp => hgrow.bytes frame (hplain frame hp)⟩
    exact (hgrow.dir i hi).imp_right fun ⟨hz, hhigh, hlow, hfree⟩ =>
      ⟨hz, hhigh, hlow, fun huse => hfree (huse.mono hused)⟩
  have hold : ∀ i < 1024, i ≠ 16 * pid.val → pde m.ram.phys i ≠ 0 → ∀ k < 1024,
      entry m'.ram.phys i k = entry m.ram.phys i k := by
    intro i hi hit hi0 k hk
    rw [← hto] at hit
    exact share_entries (s := s) h.base.tables rfl hused (by omega) (by omega) hne hshare hi hit hi0
      hk
  obtain ⟨hempty, table, -, hchild, htable, hdir, -, hcopy⟩ := hspec
  rw [hto] at hempty hchild htable hdir
  rw [hfrom, hto] at hcopy
  have hlive : m'.sched.table = Function.update m.sched.table pid (some (.page page)) := by
    rw [hsched.table, hf.table]
  refine ⟨h.grow hbase hg (fun i hi k hk => ?_) (fun i hi k hk hpriv hne' hpres => ?_)
    (fun p hp => ?_), fun hshow p hp off hoff hpriv => ?_⟩
  · exact hold i (by omega) (by omega) (h.boot i hi) k hk
  · by_cases hit : i = 16 * pid.val
    · -- the child's page has the frame of its parent's
      subst hit
      rw [Private, if_pos (Nat.mul_mod_right _ _)] at hpriv
      rw [hcopy k hk hpriv.2.2, present_protectEntry] at hpres
      rw [hcopy k hk hpriv.2.2, frameOf_protectEntry]
      have hpriv' : Private (16 * c.val) k := by
        rw [Private, if_pos (Nat.mul_mod_right _ _)]
        exact hpriv
      exact .inr (hg.plain (h.plain _ (by omega) k hk hpriv' hhome hpres))
    · rw [hdir i hi hit] at hne'
      exact .inl ⟨hne', hold i hi hit hne' k hk⟩
  · by_cases hpp : p = pid
    · exact .inr (hpp ▸ hchild)
    · rw [hlive, Function.update_of_ne hpp] at hp
      exact .inl hp
  · obtain ⟨hi, hwin⟩ := index_lt_of_offset p hoff
    have hact : act m (.kernel (.task (.fork esp fuel))) = .spawn (curPid m) pid.val := by
      rw [act, hpid]
    rw [hact, hcur]
    by_cases hpp : p = pid
    · subst hpp
      rw [memories_spawn_self]
      obtain ⟨hindex, hpte, hrem⟩ := index_of_offset p off
      obtain ⟨hindex', hpte', hrem'⟩ := index_of_offset c off
      rw [mapped_iff, load, pageAddr_eq, hindex, hpte, hrem]
      rw [PrivateAt, hindex, hpte] at hpriv
      by_cases hfirst : off < 2 ^ 22
      · have hquot : off / 2 ^ 22 = 0 := Nat.div_eq_of_lt hfirst
        rw [hquot, Nat.add_zero] at hindex hindex' hpriv ⊢
        have hpriv' : PrivateAt (windowBase c.val + off) := by
          rw [PrivateAt, hindex', hpte', Private, if_pos (Nat.mul_mod_right _ _)]
          rwa [Private, if_pos (Nat.mul_mod_right _ _)] at hpriv
        rw [Private, if_pos (Nat.mul_mod_right _ _)] at hpriv
        obtain ⟨hyes, hno⟩ := hshow c (by rw [hc]; exact Option.some_ne_none _) off hoff hpriv'
        rw [mapped_iff, load, pageAddr_eq, hindex', hpte', hrem'] at hyes
        rw [mapped_iff, hindex', hpte'] at hno
        have hk : off / pageSize % 1024 < 1024 := Nat.mod_lt _ (by decide)
        rw [hcopy _ hk hpriv.2.2, present_protectEntry, frameOf_protectEntry, inherit,
          if_pos hfirst]
        refine ⟨fun hmap => ?_, fun hnot => hno fun hmap => hnot ⟨hchild, hmap.2⟩⟩
        rw [PrivateAt, hindex', hpte'] at hpriv'
        have hplain := h.plain _ (by omega) _ hk hpriv' hhome hmap.2
        rw [hg.bytes _ hplain (frameOf_mod _) _ (Nat.mod_lt _ (by decide))]
        exact hyes ⟨hhome, hmap.2⟩
      · -- behind its first 4 MB a new task has nothing
        have hquot : off / 2 ^ 22 ≠ 0 := fun hz => hfirst (Nat.lt_of_div_eq_zero (by decide) hz)
        have hnone : pde m'.ram.phys (16 * p.val + off / 2 ^ 22) = 0 := by
          rw [hindex] at hi hwin
          rw [hdir _ hi (by omega)]
          by_contra hne'
          obtain ⟨q, hq, hcovers⟩ := h.base.windows.mapped.live _ hi hne'
          rw [covers_iff, hwin] at hcovers
          exact hq (Fin.ext hcovers ▸ hf.free)
        rw [inherit, if_neg hfirst]
        exact ⟨fun hmap => absurd hnone hmap.1, fun _ => rfl⟩
    · have hpval : (p.val : Int) ≠ pid.val := fun heq => hpp (Fin.ext (Int.ofNat.inj heq))
      rw [memories_spawn_of_ne hpval]
      rw [hlive, Function.update_of_ne hpp] at hp
      have hit : pdeIndex (windowBase p.val + off) ≠ 16 * pid.val := fun heq => by
        rw [heq] at hwin
        exact hpp (Fin.ext (by omega))
      exact hshow.keep h hg hp hoff hpriv (hdir _ hi hit) fun hne' =>
        hold _ hi hit hne' _ (pteIndex_lt _)

/-- A supplied page leaves every other entry of a table alone. -/
theorem Supplied.entries {s s' : Ram} {page : Nat} (hs : Supplied s s' addr page) (ht : Tables s)
    (haddr : pdeIndex addr < 1024) (hi : i < 1024) (hk : k < 1024) (hne : pde s.phys i ≠ 0)
    (hother : i ≠ pdeIndex addr ∨ k ≠ pteIndex addr) : entry s'.phys i k = entry s.phys i k := by
  by_cases hia : i = pdeIndex addr
  · subst hia
    exact hs.others hne k hk (hother.resolve_left fun hn => hn rfl)
  · obtain ⟨hle, huse⟩ := ht.inUse i hi hne
    have hapart : tableOf s.phys i + pageSize ≤ tableOf s'.phys (pdeIndex addr) ∨
        tableOf s'.phys (pdeIndex addr) + pageSize ≤ tableOf s.phys i := by
      rcases hs.table with ⟨hne', hsame, -⟩ | ⟨-, hfresh, -⟩
      · rw [show tableOf s'.phys (pdeIndex addr) = tableOf s.phys (pdeIndex addr) by
          rw [tableOf, hsame, tableOf]]
        exact frames_apart (tableOf_mod _ _) (tableOf_mod _ _) (ht.apart i hi _ haddr hne hne' hia)
      · exact hfresh.apart huse (tableOf_mod _ _)
    refine entry_congr (hs.dir i hi hia) fun x hx hx' => hs.bytes x (by omega) ?_
    simp only [pageSize] at *
    omega

/-- The frame of a new entry is plain. -/
theorem plain_entryOf {s' : Ram} {page : Nat} {s : Ram} (hfresh : Fresh s page)
    (huse : InUse s' page) (htables : ∀ i < 1024, pde s'.phys i ≠ 0 → tableOf s'.phys i ≠ page) :
    Plain s' (frameOf (entryOf page)) := by
  have hframe : frameOf (entryOf page) = page := by
    have hmod := hfresh.aligned
    rw [frameOf_entryOf]
    simp only [frameOf, pageSize] at *
    omega
  rw [hframe]
  have hle : pageSize ≤ lowMem := by decide
  exact ⟨hle.trans hfresh.low, huse, fun _ => htables⟩

/-- do_no_page does not come for a page of head.asm's tables. -/
theorem Inv.fault_high (h : Inv m) {s' : Ram} {page : Nat} (hs : Supplied m.ram s' addr page) :
    4 ≤ pdeIndex addr := by
  by_contra hlow
  rcases hs.table with ⟨-, -, hzero⟩ | ⟨hzero, -⟩
  · rw [h.identity _ (by omega) _ (pteIndex_lt addr)] at hzero
    omega
  · exact h.boot _ (by omega) hzero

theorem Inv.fault (h : Inv m) (hin : InWindow (m.sched.task m.sched.current).pid addr)
    (hfault : doNoPage m.ram addr = .ok ram) : Inv { m with ram := ram } ∧
      (SuppliesZeros m.ram addr → Shows m mem → Shows { m with ram := ram } mem) := by
  have hbase : WriteFault.Inv { m with ram := ram } := h.base.step (.task (.fault hin hfault))
  have haddr : pdeIndex addr < 1024 := index_lt h.base.windows hin
  have ht := h.base.tables
  obtain ⟨table, s₁, page, htab, halloc, hs⟩ := doNoPage_supplied ht haddr hfault
  have hhigh := h.fault_high hs
  have hg : Grows m.ram ram := hs.grows haddr hhigh (h.high _ haddr hhigh)
  have hframe : frameOf (entryOf page) = page := by
    rw [frameOf_entryOf]
    exact (pageSize_le_alloc halloc).2.2
  have hnew : Plain ram (frameOf (entryOf page)) := by
    refine plain_entryOf hs.fresh hs.inUse fun i hi hne => ?_
    by_cases hia : i = pdeIndex addr
    · exact hia ▸ hs.apart
    · rw [hs.dir i hi hia] at hne
      rw [tableOf, hs.dir i hi hia]
      exact fun heq => hs.fresh.free (heq ▸ (ht.inUse i hi hne).2)
  refine ⟨h.grow hbase hg (fun i hi k hk => ?_) (fun i hi k hk hpriv hne hpres => ?_)
    (fun p hp => .inl hp), fun hzeros hshow p hp off hoff hpriv => ?_⟩
  · exact hs.entries ht haddr (by omega) hk (h.boot i hi) (.inl (by omega))
  · change pde ram.phys i ≠ 0 at hne
    change present (entry ram.phys i k) = true at hpres
    by_cases hself : i = pdeIndex addr ∧ k = pteIndex addr
    · obtain ⟨rfl, rfl⟩ := hself
      rw [hs.supplied]
      exact .inr hnew
    · have hother : i ≠ pdeIndex addr ∨ k ≠ pteIndex addr := by
        rwa [not_and_or] at hself
      by_cases hold : pde m.ram.phys i = 0
      · -- the rest of a new table is empty
        have hia : i = pdeIndex addr := by
          by_contra hia
          exact hne ((hs.dir i hi hia).trans hold)
        subst hia
        rcases hs.table with ⟨hne', -⟩ | ⟨-, -, hempty⟩
        · exact absurd hold hne'
        · rw [hempty k hk (hother.resolve_left fun hn => hn rfl)] at hpres
          cases hpres
      · exact .inl ⟨hold, hs.entries ht haddr hi hk hold hother⟩
  · obtain ⟨hi, -⟩ := index_lt_of_offset p hoff
    by_cases hself : pdeIndex (windowBase p.val + off) = pdeIndex addr ∧
        pteIndex (windowBase p.val + off) = pteIndex addr
    · -- the supplied page
      have hunmapped : ¬Mapped m.ram.phys (windowBase p.val + off) := by
        rw [mapped_iff, hself.1, hself.2]
        rintro ⟨hne, hpres⟩
        rcases hs.table with ⟨-, -, hzero⟩ | ⟨hzero, -⟩
        · rw [hzero] at hpres
          cases hpres
        · exact hne hzero
      have hmem := (hshow p hp off hoff hpriv).2 hunmapped
      refine ⟨fun _ => ?_, fun _ => hmem⟩
      rw [hmem, load, pageAddr_eq, hself.1, hself.2]
      show ram.phys (frameOf (entry ram.phys _ _) + _) = 0
      rw [hs.supplied, hframe]
      have hr : (windowBase p.val + off) % pageSize < pageSize := Nat.mod_lt _ (by decide)
      have hapart := frames_apart hs.fresh.aligned (tableOf_mod ram.phys (pdeIndex addr))
        hs.apart.symm
      have hlow : pageSize ≤ page := (show pageSize ≤ lowMem by decide).trans hs.fresh.low
      rw [hs.bytes _ (by omega) (by omega)]
      exact hzeros table s₁ page _ htab halloc _ hr
    · have hother : pdeIndex (windowBase p.val + off) ≠ pdeIndex addr ∨
          pteIndex (windowBase p.val + off) ≠ pteIndex addr := by
        rwa [not_and_or] at hself
      by_cases hnew' : pde m.ram.phys (pdeIndex (windowBase p.val + off)) = 0 ∧
          pdeIndex (windowBase p.val + off) = pdeIndex addr
      · -- another page of a new table
        obtain ⟨hold, hia⟩ := hnew'
        have hmem := (hshow p hp off hoff hpriv).2 fun hmap => hmap.dir hold
        refine ⟨fun hmap => ?_, fun _ => hmem⟩
        rw [mapped_iff] at hmap
        change pde ram.phys _ ≠ 0 ∧ present (entry ram.phys _ _) = true at hmap
        rw [hia] at hold hmap
        rcases hs.table with ⟨hne', -⟩ | ⟨-, -, hempty⟩
        · exact absurd hold hne'
        · rw [hempty _ (pteIndex_lt _) (hother.resolve_left fun hn => hn hia)] at hmap
          cases hmap.2
      · have hg' : Grows m.ram ({ m with ram := ram } : Machine).ram := hg
        refine hshow.keep h hg' hp hoff hpriv ?_ fun hne =>
          hs.entries ht haddr hi (pteIndex_lt _) hne hother
        by_cases hia : pdeIndex (windowBase p.val + off) = pdeIndex addr
        · rcases hs.table with ⟨-, hsame, -⟩ | ⟨hold, -⟩
          · rw [hia]
            exact hsame
          · exact absurd ⟨hia ▸ hold, hia⟩ hnew'
        · exact hs.dir _ hi hia

/-- head.asm's tables let everything be written. -/
theorem Inv.protected_high (h : Inv m) (hprot : Protected m.ram.phys addr) : 4 ≤ pdeIndex addr := by
  by_contra hlow
  have hentry := hprot.readOnly
  have hwritable : ∀ n, writable (n * pageSize + 7) = true := fun n => by
    apply decide_eq_true
    simp only [pageSize]
    omega
  rw [pteOf_eq, h.identity _ (by omega) _ (pteIndex_lt addr), hwritable] at hentry
  cases hentry

theorem Inv.writeFault (h : Inv m) (hin : InWindow (m.sched.task m.sched.current).pid addr)
    (hprot : Protected m.ram.phys addr) (hfault : doWpPage m.ram addr = .ok ram) :
    Inv { m with ram := ram } ∧ (Shows m mem → Shows { m with ram := ram } mem) := by
  have hbase : WriteFault.Inv { m with ram := ram } := h.base.step (.writeFault hin hprot hfault)
  have haddr : pdeIndex addr < 1024 := index_lt h.base.windows hin
  have ht := h.base.tables
  have hhigh := h.protected_high hprot
  obtain ⟨page, hc, hg⟩ := doWpPage_copied ht haddr hprot (h.high _ haddr hhigh hprot.dir) hfault
  have hg' : Grows m.ram ({ m with ram := ram } : Machine).ram := hg
  have hframe : frameOf (entryOf page) = page := by
    have hmod := hc.fresh.aligned
    rw [frameOf_entryOf]
    simp only [frameOf, pageSize] at *
    omega
  have hnew : Plain ram (frameOf (entryOf page)) := by
    refine plain_entryOf hc.fresh hc.inUse fun i hi hne => ?_
    rw [hc.dir i hi] at hne
    rw [tableOf, hc.dir i hi]
    exact fun heq => hc.fresh.free (heq ▸ (ht.inUse i hi hne).2)
  have hold : ∀ i < 1024, ∀ k < 1024, pde m.ram.phys i ≠ 0 →
      ¬(i = pdeIndex addr ∧ k = pteIndex addr) → entry ram.phys i k = entry m.ram.phys i k :=
    fun i hi k hk hne hother => hc.others i hi k hk hne (by rwa [not_and_or] at hother)
  refine ⟨h.grow hbase hg (fun i hi k hk => ?_) (fun i hi k hk hpriv hne hpres => ?_)
    (fun p hp => .inl hp), fun hshow p hp off hoff hpriv => ?_⟩
  · exact hold i (by omega) k hk (h.boot i hi) fun hself => by omega
  · change pde ram.phys i ≠ 0 at hne
    rw [hc.dir i hi] at hne
    by_cases hself : i = pdeIndex addr ∧ k = pteIndex addr
    · obtain ⟨rfl, rfl⟩ := hself
      change Plain ram _ at hnew
      right
      show Plain ram (frameOf (entry ram.phys _ _))
      rw [hc.copied]
      exact hnew
    · exact .inl ⟨hne, hold i hi k hk hne hself⟩
  · obtain ⟨hi, -⟩ := index_lt_of_offset p hoff
    by_cases hself : pdeIndex (windowBase p.val + off) = pdeIndex addr ∧
        pteIndex (windowBase p.val + off) = pteIndex addr
    · -- the page that was copied
      have hmapped : Mapped m.ram.phys (windowBase p.val + off) := by
        rw [mapped_iff, hself.1, hself.2, ← pteOf_eq]
        exact ⟨hprot.dir, hprot.present⟩
      have hload := (hshow p hp off hoff hpriv).1 hmapped
      have hpage : pageAddr m.ram.phys addr = pageAddr m.ram.phys (windowBase p.val + off) := by
        rw [pageAddr_eq, pageAddr_eq, hself.1, hself.2]
      have hmapped' : Mapped ram.phys (windowBase p.val + off) := by
        rw [mapped_iff, hself.1, hself.2, hc.copied, hc.dir _ haddr]
        exact ⟨hprot.dir, present_entryOf page⟩
      refine ⟨fun _ => ?_, fun hno => absurd hmapped' hno⟩
      rw [← hload]
      show load ram.phys _ = _
      rw [load, load, pageAddr_eq ram.phys, hself.1, hself.2, hc.copied, hframe, ← hpage]
      exact hc.contents _ (Nat.mod_lt _ (by decide))
    · exact hshow.keep h hg' hp hoff hpriv (hc.dir _ hi) fun hne =>
        hold _ hi _ (pteIndex_lt _) hne hself

/-- The frame of an exclusive store is neither the page directory nor a page table, and a page of a
task behind another entry has another frame. -/
theorem Inv.exclusive (h : Inv m) (haddr : pdeIndex addr < 1024) (hmap : Mapped m.ram.phys addr)
    (hex : Exclusive m.ram addr) : pageSize ≤ pageAddr m.ram.phys addr ∧
      (∀ i < 1024, pde m.ram.phys i ≠ 0 → tableOf m.ram.phys i ≠ pageAddr m.ram.phys addr) ∧
      ∀ i < 1024, ∀ k < 1024, Private i k → pde m.ram.phys i ≠ 0 →
        present (entry m.ram.phys i k) = true →
        frameOf (entry m.ram.phys i k) = pageAddr m.ram.phys addr →
          i = pdeIndex addr ∧ k = pteIndex addr := by
  rcases hex with hfree | ⟨hpriv, htable, halone⟩
  · refine ⟨?_, fun i hi hne heq => hfree ?_, fun i hi k hk hpriv hne hpres heq => ?_⟩
    · by_contra hsmall
      have hlow : pageAddr m.ram.phys addr < lowMem := (not_le.mp hsmall).trans (by decide)
      exact hfree (.inl hlow)
    · exact heq ▸ (h.base.tables.inUse i hi hne).2
    · exact absurd (heq ▸ (h.plain i hi k hk hpriv hne hpres).inUse) hfree
  · rw [mapped_iff] at hmap
    have hplain := h.plain _ haddr _ (pteIndex_lt addr) hpriv hmap.1 hmap.2
    rw [← pageAddr_eq] at hplain
    exact ⟨hplain.directory, htable, halone⟩

/-- Two offsets of one window with the same entry are in one page. -/
theorem same_page {p : Fin nrTask} {off off' : Nat} (hoff : off < windowSize)
    (hoff' : off' < windowSize)
    (hi : pdeIndex (windowBase p.val + off) = pdeIndex (windowBase p.val + off'))
    (hk : pteIndex (windowBase p.val + off) = pteIndex (windowBase p.val + off')) :
    (windowBase p.val + off) % pageSize = (windowBase p.val + off') % pageSize ↔ off = off' := by
  rw [(index_of_offset p off).1, (index_of_offset p off').1] at hi
  rw [(index_of_offset p off).2.1, (index_of_offset p off').2.1] at hk
  rw [(index_of_offset p off).2.2, (index_of_offset p off').2.2]
  simp only [windowSize, pageSize] at *
  omega

/-- An exclusive store changes nothing outside of its page, and no table. -/
theorem Inv.store_frame (h : Inv m) {v : UInt8} (haddr : pdeIndex addr < 1024)
    (hmap : Mapped m.ram.phys addr) (hex : Exclusive m.ram addr) :
    (∀ x, (x < pageAddr m.ram.phys addr ∨ pageAddr m.ram.phys addr + pageSize ≤ x) →
        storeAt m.ram.phys addr v x = m.ram.phys x) ∧
      (∀ i < 1024, pde (storeAt m.ram.phys addr v) i = pde m.ram.phys i) ∧
      ∀ i < 1024, pde m.ram.phys i ≠ 0 → ∀ k < 1024,
        entry (storeAt m.ram.phys addr v) i k = entry m.ram.phys i k := by
  obtain ⟨hdirectory, htable, -⟩ := h.exclusive haddr hmap hex
  have hr : addr % pageSize < pageSize := Nat.mod_lt _ (by decide)
  have hbytes : ∀ x, (x < pageAddr m.ram.phys addr ∨ pageAddr m.ram.phys addr + pageSize ≤ x) →
      storeAt m.ram.phys addr v x = m.ram.phys x := by
    intro x hx
    have hne : x ≠ pageAddr m.ram.phys addr + addr % pageSize := by omega
    rw [storeAt, Function.update_of_ne hne]
  have hdir : ∀ i < 1024, pde (storeAt m.ram.phys addr v) i = pde m.ram.phys i := fun i hi =>
    pde_congr hi fun x hx => hbytes x (.inl (hx.trans_le hdirectory))
  refine ⟨hbytes, hdir, fun i hi hne k hk => ?_⟩
  have hmod : pageAddr m.ram.phys addr % pageSize = 0 := frameOf_mod _
  have hapart := frames_apart (tableOf_mod _ i) hmod (htable i hi hne)
  refine entry_congr (hdir i hi) fun x hx hx' => hbytes x ?_
  simp only [pageSize] at *
  omega

theorem Inv.store (h : Inv m) {off : Nat} {v : UInt8} (hoff : off < windowSize)
    (hmap : Mapped m.ram.phys (curAddr m off)) (hex : Exclusive m.ram (curAddr m off)) :
    Inv { m with ram := { m.ram with phys := storeAt m.ram.phys (curAddr m off) v } } ∧
      (Shows m (memories inherit start acts) →
        Shows { m with ram := { m.ram with phys := storeAt m.ram.phys (curAddr m off) v } }
          (memories inherit start (.store (curPid m) off v :: acts))) := by
  obtain ⟨c, hc, hcur⟩ := h.current
  rw [curAddr, hcur] at hmap hex ⊢
  obtain ⟨haddr, -⟩ := index_lt_of_offset c hoff
  obtain ⟨-, -, halone⟩ := h.exclusive haddr hmap hex
  set addr := windowBase c.val + off with hdef
  set frame := pageAddr m.ram.phys addr with hframe
  set phys := storeAt m.ram.phys addr v with hphys
  have hmod : frame % pageSize = 0 := frameOf_mod _
  have hr : addr % pageSize < pageSize := Nat.mod_lt _ (by decide)
  obtain ⟨hbytes, hdir, hentry⟩ := h.store_frame (v := v) haddr hmap hex
  have hplain : ∀ f, Plain m.ram f → Plain { m.ram with phys := phys } f := by
    intro f hp
    refine ⟨hp.directory, hp.inUse, fun hlow i hi hne => ?_⟩
    change pde phys i ≠ 0 at hne
    rw [hdir i hi] at hne
    show tableOf phys i ≠ f
    rw [tableOf, hdir i hi]
    exact hp.notTable hlow i hi hne
  refine ⟨⟨⟨windows_ram h.base.windows hdir fun _ hk => hk, h.base.tables.keep hdir fun _ hk => hk⟩,
    fun i hi => ?_, fun i hi k hk => ?_, fun i hi hhigh hne => ?_,
    fun i hi k hk hpriv hne hpres => ?_, fun p hp => ?_⟩, fun hshow p hp off' hoff' hpriv => ?_⟩
  · change pde phys i ≠ 0
    rw [hdir i (by omega)]
    exact h.boot i hi
  · change entry phys i k = _
    rw [hentry i (by omega) (h.boot i hi) k hk]
    exact h.identity i hi k hk
  · change pde phys i ≠ 0 at hne
    change lowMem ≤ tableOf phys i
    rw [hdir i hi] at hne
    rw [tableOf, hdir i hi]
    exact h.high i hi hhigh hne
  · change pde phys i ≠ 0 at hne
    change present (entry phys i k) = true at hpres
    rw [hdir i hi] at hne
    rw [hentry i hi hne k hk] at hpres
    change Plain _ (frameOf (entry phys i k))
    rw [hentry i hi hne k hk]
    exact hplain _ (h.plain i hi k hk hpriv hne hpres)
  · have hlt : p.val < 64 := p.isLt
    change pde phys (16 * p.val) ≠ 0
    rw [hdir _ (by omega)]
    exact h.home p hp
  · obtain ⟨hi, hwin⟩ := index_lt_of_offset p hoff'
    obtain ⟨hyes, hno⟩ := hshow p hp off' hoff' hpriv
    change (Mapped phys _ → load phys _ = _) ∧ (¬Mapped phys _ → _)
    have hsame : Mapped phys (windowBase p.val + off') ↔
        Mapped m.ram.phys (windowBase p.val + off') := by
      rw [mapped_iff, mapped_iff, hdir _ hi]
      exact and_congr_right fun hne => by rw [hentry _ hi hne _ (pteIndex_lt _)]
    by_cases hself : pdeIndex (windowBase p.val + off') = pdeIndex addr ∧
        pteIndex (windowBase p.val + off') = pteIndex addr
    · -- the page of the store
      obtain rfl : p = c := Fin.ext (by
        have hwin' := (index_lt_of_offset c hoff).2
        rw [← hdef, ← hself.1] at hwin'
        omega)
      have hmapped : Mapped m.ram.phys (windowBase p.val + off') := by
        rw [mapped_iff, hself.1, hself.2, ← mapped_iff]
        exact hmap
      have hpage : pageAddr m.ram.phys (windowBase p.val + off') = frame := by
        rw [hframe, pageAddr_eq, pageAddr_eq, hself.1, hself.2]
      have hpage' : pageAddr phys (windowBase p.val + off') = frame := by
        rw [pageAddr_eq, hentry _ hi hmapped.dir _ (pteIndex_lt _), ← pageAddr_eq, hpage]
      refine ⟨fun _ => ?_, fun hnot => absurd (hsame.mpr hmapped) hnot⟩
      have hload := hyes hmapped
      rw [load, hpage] at hload
      rw [memories_store_self, load, hpage', hphys, storeAt, ← hframe]
      have hiff := same_page hoff' hoff hself.1 hself.2
      by_cases heq : off' = off
      · rw [heq, Function.update_self, Function.update_self]
      · have hne : frame + (windowBase p.val + off') % pageSize ≠ frame + addr % pageSize :=
          fun hsum => heq (hiff.mp (Nat.add_left_cancel hsum))
        rw [Function.update_of_ne hne, Function.update_of_ne heq]
        exact hload
    · -- any other page
      have hmem : memories inherit start (.store c.val off v :: acts) p.val off' =
          memories inherit start acts p.val off' := by
        by_cases hpc : p = c
        · subst hpc
          have hne : off' ≠ off := fun heq => hself ⟨by rw [heq], by rw [heq]⟩
          rw [memories_store_self, Function.update_of_ne hne]
        · have hpval : (p.val : Int) ≠ c.val := fun heq => hpc (Fin.ext (Int.ofNat.inj heq))
          rw [memories_store_of_ne hpval]
      rw [hmem, hsame]
      refine ⟨fun hmapped => ?_, hno⟩
      rw [← hyes hmapped, load, load, pageAddr_eq, pageAddr_eq,
        hentry _ hi hmapped.dir _ (pteIndex_lt _)]
      have hapart : frameOf (entry m.ram.phys (pdeIndex (windowBase p.val + off'))
          (pteIndex (windowBase p.val + off'))) ≠ frame := by
        intro heq
        rw [mapped_iff] at hmapped
        exact hself (halone _ hi _ (pteIndex_lt _) hpriv hmapped.1 hmapped.2 heq)
      have hsplit := frames_apart (frameOf_mod _) hmod hapart
      have hr' : (windowBase p.val + off') % pageSize < pageSize := Nat.mod_lt _ (by decide)
      exact hbytes _ (by omega)

/-- After do_wp_page has copied a page of a task, a store to it is exclusive. -/
theorem Inv.exclusive_copied (h : Inv m)
    (hin : InWindow (m.sched.task m.sched.current).pid addr) (hprot : Protected m.ram.phys addr)
    (hpriv : PrivateAt addr) (hfault : doWpPage m.ram addr = .ok ram) : Exclusive ram addr := by
  have haddr : pdeIndex addr < 1024 := index_lt h.base.windows hin
  have ht := h.base.tables
  obtain ⟨page, hc, -⟩ := doWpPage_copied ht haddr hprot
    (h.high _ haddr (h.protected_high hprot) hprot.dir) hfault
  have hpage : pageAddr ram.phys addr = page := by
    have hmod := hc.fresh.aligned
    rw [pageAddr_eq, hc.copied, frameOf_entryOf]
    simp only [frameOf, pageSize] at *
    omega
  rw [Exclusive, hpage]
  refine .inr ⟨hpriv, fun i hi hne => ?_, fun i hi k hk hp hne hpres heq => ?_⟩
  · rw [hc.dir i hi] at hne
    rw [tableOf, hc.dir i hi]
    exact fun heq => hc.fresh.free (heq ▸ (ht.inUse i hi hne).2)
  · by_contra hother
    rw [hc.dir i hi] at hne
    rw [hc.others i hi k hk hne (by rwa [not_and_or] at hother)] at hpres heq
    exact hc.fresh.free (heq ▸ (h.plain i hi k hk hp hne hpres).inUse)

/-- One step. -/
theorem Inv.step (h : Inv m) {e : Event} (st : Step m e m') (hkept : Kept m e) : Inv m' ∧
    (Shows m (memories inherit start acts) →
      Shows m' (memories inherit start (act m e :: acts))) := by
  cases st with
  | @kernel _ e st =>
    have hbase := h.base.step st
    cases st with
    | task st =>
      cases st with
      | fork hfork => exact h.fork hfork
      | fault hin hfault => exact (h.fault hin hfault).imp_right fun hshow => hshow hkept
      | clock hsched =>
        have htable : _ = m.sched.table := (schedule_ok hsched).table
        refine ⟨⟨hbase, h.boot, h.identity, h.high, h.plain, fun p hp => h.home p ?_⟩,
          fun hshow p hp => hshow p ?_⟩
        · rw [← htable]
          exact hp
        · rw [← htable]
          exact hp
      | dispatch ht =>
        exact ⟨⟨hbase, h.boot, h.identity, h.high, h.plain, h.home⟩, fun hshow => hshow⟩
    | writeFault hin hprot hfault => exact h.writeFault hin hprot hfault
  | store hoff hmap _ => exact h.store hoff hmap hkept

/-! ## The machine after boot -/

theorem Started.small (hm : Started m) (hi : i < 1024) (hne : pde m.ram.phys i ≠ 0) : i < 4 := by
  by_contra hge
  exact hne (hm.booted.empty i hi (not_lt.mp hge))

theorem Started.live (hm : Started m) {p : Fin nrTask} (hp : m.sched.table p ≠ none) : p = 0 := by
  obtain ⟨s, hs⟩ := hm.booted.sched
  obtain ⟨-, htable, -⟩ := schedInit_ok hs
  by_contra hne
  rw [htable, Function.update_of_ne hne] at hp
  exact hp rfl

theorem Started.inv (hm : Started m) : Inv m := by
  have hboot : ∀ i < 4, pde m.ram.phys i ≠ 0 := fun i hi => by
    rw [hm.booted.tables i hi]
    omega
  refine ⟨inv_booted hm.booted, hboot, hm.identity, fun i hi hhigh hne => ?_,
    fun i hi k hk hpriv hne hpres => ?_, fun p hp => ?_⟩
  · exact absurd (hm.small hi hne) (not_lt.mpr hhigh)
  · have hi4 := hm.small hi hne
    by_cases hi0 : i = 0
    · subst hi0
      rw [Private, if_pos rfl] at hpriv
      have hframe : frameOf (entry m.ram.phys 0 k) = k * pageSize := by
        rw [hm.identity 0 (by decide) k hk]
        simp only [frameOf, pageSize]
        omega
      rw [hframe]
      simp only [pageSize] at hpriv ⊢
      exact ⟨by simp only [pageSize]; omega, .inl (by simp only [lowMem]; omega),
        fun hlow => absurd hlow (by simp only [lowMem]; omega)⟩
    · rw [Private, if_neg (by omega)] at hpriv
      exact absurd hi4 (not_lt.mpr hpriv)
  · rw [hm.live hp]
    exact hboot 0 (by decide)

/-- Init starts with the pages below LOW_MEM, and the rest of its own pages is not there. -/
theorem Started.shows (hm : Started m) : Shows m (bootMemory m) := by
  intro p hp off hoff hpriv
  obtain rfl := hm.live hp
  obtain ⟨hindex, hpte, hrem⟩ := index_of_offset 0 off
  obtain ⟨hi, -⟩ := index_lt_of_offset 0 hoff
  rw [PrivateAt, hindex, hpte] at hpriv
  rw [mapped_iff, load, pageAddr_eq, hindex, hpte, hrem]
  rw [hindex] at hi
  simp only [Fin.val_zero, Nat.mul_zero, Nat.zero_add, Nat.cast_zero] at *
  by_cases hfirst : off / 2 ^ 22 = 0
  · rw [hfirst, Private, if_pos rfl] at hpriv
    have hk : off / pageSize % 1024 < 1024 := Nat.mod_lt _ (by decide)
    have hsize : off / pageSize < 1024 := by
      simp only [pageSize]
      omega
    rw [Nat.mod_eq_of_lt hsize] at hpriv ⊢
    have hin : pageSize ≤ off ∧ off < lowMem := by
      obtain ⟨hone, hlow, -⟩ := hpriv
      simp only [pageSize, lowMem] at *
      omega
    have hmem : bootMemory m 0 off = m.ram.phys off := if_pos ⟨rfl, hin⟩
    have hentry := hm.identity 0 (by decide) (off / pageSize) hsize
    have hframe : frameOf (entry m.ram.phys 0 (off / pageSize)) + off % pageSize = off := by
      rw [hentry]
      simp only [frameOf, pageSize]
      omega
    rw [hfirst, hmem, hframe]
    refine ⟨fun _ => rfl, fun hnot => absurd ⟨hm.inv.boot 0 (by decide), ?_⟩ hnot⟩
    rw [hentry]
    apply decide_eq_true
    simp only [pageSize]
    omega
  · have hfar : 4 ≤ off / 2 ^ 22 := by
      rw [windowSize] at hoff
      rw [Private, if_neg (by omega)] at hpriv
      exact hpriv
    refine ⟨fun hmap => absurd (hm.small hi hmap.1) (not_lt.mpr hfar), fun _ => ?_⟩
    rw [bootMemory, if_neg]
    simp only [lowMem]
    omega

end Invariant

/-! ## Runs -/

section Runs

variable {m₀ m₀' m m' : Machine} {acts acts' : List (Act Int Nat UInt8)}

/-- The run lemma. -/
theorem Run.shows (hm : Started m₀) (hrun : Run Kept m₀ acts m) :
    Inv m ∧ Shows m (memories inherit (bootMemory m₀) acts) := by
  induction hrun with
  | nil => exact ⟨hm.inv, hm.shows⟩
  | cons _ st hkept ih =>
    obtain ⟨hinv, hshow⟩ := ih.1.step st hkept
    exact ⟨hinv, hshow ih.2⟩

/-- In runs in which every store is exclusive and every supplied frame empty, what a task reads in
its pages is what its stores and those of its ancestors before the fork make of the memory after
boot; two runs that agree on these give the same bytes. -/
theorem reads_of_lineage (hm : Started m₀) (hm' : Started m₀')
    (hboot : ∀ a, pageSize ≤ a → a < lowMem → m₀.ram.phys a = m₀'.ram.phys a)
    (hrun : Run Kept m₀ acts m) (hrun' : Run Kept m₀' acts' m') {p : Fin nrTask}
    (hlive : m.sched.table p ≠ none) (hlive' : m'.sched.table p ≠ none)
    (hlineage : lineage acts p.val = lineage acts' p.val) {off : Nat} (hoff : off < windowSize)
    (hpriv : PrivateAt (windowBase p.val + off))
    (hmap : Mapped m.ram.phys (windowBase p.val + off))
    (hmap' : Mapped m'.ram.phys (windowBase p.val + off)) :
    load m.ram.phys (windowBase p.val + off) =
        memories inherit (bootMemory m₀) (lineage acts p.val) p.val off ∧
      load m.ram.phys (windowBase p.val + off) = load m'.ram.phys (windowBase p.val + off) := by
  have hstart : bootMemory m₀ = bootMemory m₀' := by
    funext pid a
    rw [bootMemory, bootMemory]
    by_cases hin : pid = 0 ∧ pageSize ≤ a ∧ a < lowMem
    · rw [if_pos hin, if_pos hin]
      exact hboot a hin.2.1 hin.2.2
    · rw [if_neg hin, if_neg hin]
  have hread := ((hrun.shows hm).2 p hlive off hoff hpriv).1 hmap
  have hread' := ((hrun'.shows hm').2 p hlive' off hoff hpriv).1 hmap'
  rw [memories_lineage]
  exact ⟨hread, hread.trans ((congrFun (memories_eq_of_lineage hstart hlineage) off).trans
    hread'.symm)⟩

/-! ## Init and its child -/

theorem identityMachine_started (h : identityMachine = .ok m) : Started m := by
  have hbooted := identityMachine_booted h
  simp only [identityMachine, bind_eq_ok, pure_eq_ok, Except.ok.injEq] at h
  obtain ⟨s, -, rfl⟩ := h
  refine ⟨hbooted, fun i hi k hk => ?_⟩
  have htable : tableOf identityRam.phys i = (i + 1) * pageSize := by
    rw [tableOf, show pde identityRam.phys i = (i + 1) * pageSize + 7 from hbooted.tables i hi]
    simp only [frameOf, pageSize]
    omega
  rw [entry, htable]
  refine wordAt_byteOf_nat le_rfl (by simp only [pageSize]; omega) fun j hj => ?_
  have hdir : ¬(i + 1) * pageSize + 4 * k + j < 16 := by
    simp only [pageSize]
    omega
  have hin : pageSize ≤ (i + 1) * pageSize + 4 * k + j ∧
      (i + 1) * pageSize + 4 * k + j < 5 * pageSize := by
    simp only [pageSize]
    omega
  have hvalue : (((i + 1) * pageSize + 4 * k + j : Nat) - (pageSize : Int)) / 4 * pageSize + 7 =
      ((1024 * i + k) * pageSize + 7 : Nat) := by
    simp only [pageSize]
    omega
  have hrem : ((i + 1) * pageSize + 4 * k + j) % 4 = j := by
    simp only [pageSize]
    omega
  show (if _ < 16 then _ else if _ then _ else _) = _
  rw [if_neg hdir, if_pos hin, hvalue, hrem]

theorem forkInto_run {cond : Machine → Event → Prop}
    (hfork : ∀ m esp fuel, cond m (.kernel (.task (.fork esp fuel))))
    (hdispatch : ∀ m t esp, cond m (.kernel (.task (.dispatch t esp)))) {child : TaskPtr}
    (hrun : Run cond m₀ acts m) (h : forkInto m child = .ok m') :
    ∃ acts', Run cond m₀ acts' m' := by
  simp only [forkInto, bind_eq_ok, access_eq_ok, pure_eq_ok, Except.ok.injEq] at h
  obtain ⟨m₁, hdo, _, hmem, rfl⟩ := h
  exact ⟨_, .cons (.cons hrun (.kernel (.task (.fork hdo))) (hfork _ _ _))
    (.kernel (.task (.dispatch hmem))) (hdispatch _ _ _)⟩

/-- The child of init has copied its page at 0x10000 and stores into it: it reads its store, in this
run and after one more dispatch. -/
theorem reads_of_lineage_child : ∃ m₀ m m' acts acts', Started m₀ ∧ Run Kept m₀ acts m ∧
    Run Kept m₀ acts' m' ∧ load m.ram.phys 0x4010000 = load m'.ram.phys 0x4010000 := by
  obtain ⟨m₀, m₁, ram, m₂, hfamily, hchild, -⟩ := familyRun_ok
  simp only [familyRun, bind_eq_ok, pure_eq_ok, Except.ok.injEq, Prod.mk.injEq] at hfamily
  obtain ⟨m₀', hboot, m₁', hfork, ram', hwp, _, -, rfl, rfl, rfl, rfl⟩ := hfamily
  have hm := identityMachine_started hboot
  obtain ⟨acts, hrun⟩ := forkInto_run (fun _ _ _ => trivial) (fun _ _ _ => trivial)
    (.nil : Run Kept m₀' [] _) hfork
  obtain ⟨hinv, -⟩ := hrun.shows hm
  obtain ⟨hin, hprot, -⟩ := entryAt_fault hchild rfl rfl
  obtain ⟨c, hc, hcur⟩ := hinv.current
  have hsolved : Solved m₁'.ram ram' 0x4010000 := by
    obtain ⟨-, page, halloc, hphys⟩ := doWpPage_ok hwp
    exact hinv.base.tables.solved (by decide) hprot halloc hphys
  have hmap : Mapped ram'.phys 0x4010000 := by
    refine ⟨?_, hsolved.present⟩
    rw [hsolved.directory _ (by decide)]
    exact hprot.dir
  have hex := hinv.exclusive_copied hin hprot ⟨by decide, by decide, by decide⟩ hwp
  have hrun₁ := hrun.cons (.kernel (.writeFault hin hprot hwp)) trivial
  change InWindow (curPid m₁') _ at hin
  rw [hcur] at hin
  obtain ⟨off, hoff⟩ := Nat.exists_eq_add_of_le hin.1
  have hsize : off < windowSize := by
    have hlt := hin.2
    omega
  have haddr : curAddr { m₁' with ram := ram' } off = 0x4010000 := by
    rw [hoff]
    exact congrArg (windowBase · + off) hcur
  set m : Machine := { m₁' with ram := ram' } with hmdef
  have hmap₁ : Mapped m.ram.phys (curAddr m off) := haddr.symm ▸ hmap
  have hex₁ : Exclusive m.ram (curAddr m off) := haddr.symm ▸ hex
  have hwritable : writable (pteOf m.ram.phys (curAddr m off)) = true :=
    haddr.symm ▸ hsolved.writable
  have hrun₂ := hrun₁.cons (.store hsize hmap₁ hwritable (v := 7)) hex₁
  obtain ⟨hinv₁, -⟩ := hrun₁.shows hm
  obtain ⟨hinv₂, -⟩ := hrun₂.shows hm
  have hdispatch := @TaskWindow.Step.dispatch _ _ 0 hinv₂.base.windows.placed.current_mem
  have hrun₃ := hrun₂.cons (.kernel (.task hdispatch)) trivial
  have hlt : pdeIndex (curAddr m off) < 1024 := by
    rw [haddr]
    decide
  obtain ⟨-, hdir, hentry⟩ := hinv₁.store_frame (v := 7) hlt hmap₁ hex₁
  have hmap₂ : Mapped (storeAt m.ram.phys (curAddr m off) 7) (windowBase c.val + off) := by
    rw [← hoff, ← haddr, mapped_iff, hdir _ hlt, hentry _ hlt hmap₁.dir _ (pteIndex_lt _),
      ← mapped_iff]
    exact hmap₁
  have hlive : m.sched.table c ≠ none := by
    rw [show m.sched.table c = some _ from hc]
    exact Option.some_ne_none _
  have hpriv : PrivateAt (windowBase c.val + off) := by
    rw [← hoff]
    exact ⟨by decide, by decide, by decide⟩
  have hread := (reads_of_lineage hm hm (fun _ _ _ => rfl) hrun₂ hrun₃ hlive hlive rfl hsize hpriv
    hmap₂ hmap₂).2
  rw [← hoff] at hread
  exact ⟨_, _, _, _, _, hm, hrun₂, hrun₃, hread⟩

/-- Init runs next. -/
def initNext (m : Machine) : Machine :=
  { m with sched := switchTo m.sched m.sched.current .init 0 }

/-- Init forks a child and goes on. -/
def parentRun : Kernel (Machine × Machine) := do
  let m₀ ← identityMachine
  let m₁ ← forkInto m₀ (.page 0x100000)
  access (.init ∈ tasks m₁.sched) "task_table"
  pure (m₀, initNext m₁)

/-- Init then stores a byte at 0x10000. -/
def afterStore (m : Machine) : Machine :=
  { m with ram := { m.ram with phys := storeAt m.ram.phys (curAddr m 0x10000) 1 } }

instance (phys : Phys) (addr : Nat) : Decidable (Mapped phys addr) :=
  decidable_of_iff _ (mapped_iff phys addr).symm

/-- The store hits the page that the child shares. -/
def seenByChild (m : Machine) : Bool :=
  curPid m = 0 ∧ m.sched.table 1 ≠ none ∧ Mapped m.ram.phys (curAddr m 0x10000) ∧
    writable (pteOf m.ram.phys (curAddr m 0x10000)) ∧ Mapped m.ram.phys 0x4010000 ∧
    Mapped (afterStore m).ram.phys 0x4010000 ∧
    load m.ram.phys 0x4010000 ≠ load (afterStore m).ram.phys 0x4010000

theorem parentRun_ok : ∃ m₀ m, parentRun = .ok (m₀, m) ∧ seenByChild m = true := by
  have hrun : (match parentRun with
      | .ok (_, m) => seenByChild m
      | .error _ => false) = true := by decide +kernel
  split at hrun
  · rename_i m₀ m heq
    exact ⟨m₀, m, heq, hrun⟩
  · cases hrun

/-- What init stores after the fork, its child reads: share_vma protects the child's entries
only. -/
theorem parent_store_seen : ¬∀ (m₀ m m' : Machine) (acts acts' : List (Act Int Nat UInt8))
    (p : Fin nrTask) (off : Nat), Started m₀ → Run (fun _ _ => True) m₀ acts m →
    Run (fun _ _ => True) m₀ acts' m' → m.sched.table p ≠ none → m'.sched.table p ≠ none →
    lineage acts p.val = lineage acts' p.val → off < windowSize →
    PrivateAt (windowBase p.val + off) → Mapped m.ram.phys (windowBase p.val + off) →
    Mapped m'.ram.phys (windowBase p.val + off) →
    load m.ram.phys (windowBase p.val + off) = load m'.ram.phys (windowBase p.val + off) := by
  intro hclaim
  obtain ⟨m₀, m, hparent, hseen⟩ := parentRun_ok
  obtain ⟨hcur, hlive, hmap, hwritable, hmap₁, hmap₂, hne⟩ := of_decide_eq_true hseen
  simp only [parentRun, bind_eq_ok, access_eq_ok, pure_eq_ok, Except.ok.injEq,
    Prod.mk.injEq] at hparent
  obtain ⟨m₀', hboot, m₁, hfork, _, hmem, rfl, rfl⟩ := hparent
  obtain ⟨acts, hrun⟩ := forkInto_run (fun _ _ _ => trivial) (fun _ _ _ => trivial)
    (.nil : Run (fun _ _ => True) m₀' [] _) hfork
  have hrun₁ : Run (fun _ _ => True) m₀' (.other :: acts) (initNext m₁) :=
    hrun.cons (.kernel (.task (.dispatch hmem))) trivial
  have hrun₂ : Run (fun _ _ => True) m₀' (.store (curPid (initNext m₁)) 0x10000 1 :: .other :: acts)
      (afterStore (initNext m₁)) :=
    hrun₁.cons (.store (by decide) hmap hwritable) trivial
  rw [hcur] at hrun₂
  have hpriv : PrivateAt 0x4010000 := ⟨by decide, by decide, by decide⟩
  have haddr : windowBase ((1 : Fin nrTask).val : Int) + 0x10000 = 0x4010000 := by decide
  have hclaim := hclaim _ _ _ _ _ 1 0x10000 (identityMachine_started hboot) hrun₁ hrun₂ hlive hlive
    rfl (by decide)
  rw [haddr] at hclaim
  exact hne (hclaim hpriv hmap₁ hmap₂)

end Runs

end RxdOs.Kernel.Isolation
