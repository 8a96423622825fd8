/- RxdOs/Mm/Paging
   source: mm/memory.c (share_vma, do_no_page, do_wp_page)
   digest: Page tables in physical memory, and the three functions that change them. -/

import RxdOs.Base.Int32
import RxdOs.Mm.Memory

set_option autoImplicit false
set_option relaxedAutoImplicit false

namespace RxdOs.Mm.Paging

open RxdOs.Base.Assert RxdOs.Base.Int32 RxdOs.Mm.Memory

/-- Physical memory; the kernel's linear addresses are the same. -/
abbrev Phys := Nat → UInt8

/-- mem_map, and the memory with the page directory at address 0. -/
structure Ram where
  mem : Mem
  phys : Phys

/-- The u32 at `a`. -/
def word (phys : Phys) (a : Nat) : Nat := wordAt phys a 4

/-- `*(u32 *)a = w` -/
def poke (phys : Phys) (a w : Nat) : Phys := fun i =>
  if a ≤ i ∧ i < a + 4 then byteOf w (i - a) else phys i

/-- The page at `src`, copied to `dst`. -/
def copyPage (phys : Phys) (dst src : Nat) : Phys := fun i =>
  if dst ≤ i ∧ i < dst + pageSize then phys (src + (i - dst)) else phys i

/-- `memcpy(dst, src, PAGE_SIZE)` -/
def memcpyPage (phys : Phys) (dst src : Nat) : Kernel Phys := do
  assert (dst ≠ 0) "_dst != NULL"
  assert (src ≠ 0) "_src != NULL"
  assert (dst + pageSize ≤ src ∨ dst ≥ src + pageSize)
    "(dst + num) <= src || dst >= (src + num)"
  pure (copyPage phys dst src)

/-- memset of a page to 0 -/
def zeroPage (phys : Phys) (dst : Nat) : Phys := fun i =>
  if dst ≤ i ∧ i < dst + pageSize then 0 else phys i

/-- `w & 0xfffff000` -/
def frameOf (w : Nat) : Nat := w / pageSize * pageSize

/-- The bit PG_P. -/
def present (w : Nat) : Bool := w % 2 = 1

/-- The bit PG_RW. -/
def writable (w : Nat) : Bool := w / 2 % 2 = 1

/-- `w & 0xfffffffd` -/
def protectEntry (w : Nat) : Nat := if writable w then w - 2 else w

/-- `w | 2` -/
def unprotectEntry (w : Nat) : Nat := if writable w then w else w + 2

/-- `(page & 0xfffff000) | PAGE_DEFAULT` -/
def entryOf (page : Nat) : Nat := frameOf page + 7

/-- `PDE(vaddr)` -/
def pdeAddr (vaddr : Nat) : Nat := vaddr / 2 ^ 22 * 4

/-- `PTE(vaddr)` -/
def pteAddr (phys : Phys) (vaddr : Nat) : Nat :=
  frameOf (word phys (pdeAddr vaddr)) + vaddr / pageSize % 1024 * 4

/-- `PAGE_ADDR(vaddr)` -/
def pageAddr (phys : Phys) (vaddr : Nat) : Nat := frameOf (word phys (pteAddr phys vaddr))

/-- `*(to_page++) = (*(from_page++) & 0xfffffffd)`, `n` times. -/
def copyTable : Nat → Nat → Nat → Phys → Phys
  | 0, _, _, phys => phys
  | n + 1, fromPage, toPage, phys =>
    copyTable n (fromPage + 4) (toPage + 4) (poke phys toPage (protectEntry (word phys fromPage)))

/-- The entry of video memory, which tasks share. -/
def videoEntry : Nat := 144

def shareVma (s : Ram) (fromAddr toAddr size : Nat) : Kernel Ram := do
  assert (fromAddr % 0x400000 = 0 ∧ toAddr % 0x400000 = 0)
    "((from & 0x003fffff) == 0) && ((to & 0x003fffff) == 0)"
  assert (if fromAddr > toAddr then fromAddr - toAddr ≥ size else toAddr - fromAddr ≥ size)
    "from > to ? (from - to >= size) : (to - from >= size)"
  assert (word s.phys (pdeAddr toAddr) = 0) "*to_pde == 0"
  let (page, mem) ← allocPage s.mem
  let phys := poke s.phys (pdeAddr toAddr) (entryOf page)
  let fromPage := frameOf (word phys (pdeAddr fromAddr))
  let toPage := frameOf (word phys (pdeAddr toAddr))
  let phys := copyTable 1024 fromPage toPage phys
  let video := frameOf (word phys (pdeAddr toAddr)) + 4 * videoEntry
  pure { mem := mem, phys := poke phys video (unprotectEntry (word phys video)) }

/-- The page table of an address; a directory entry without one gets an empty table. -/
def tableFor (s : Ram) (addr : Nat) : Kernel (Nat × Ram) :=
  if present (word s.phys (pdeAddr addr)) then pure (frameOf (word s.phys (pdeAddr addr)), s)
  else do
    let (table, mem) ← allocPage s.mem
    pure (table, { mem := mem, phys := poke (zeroPage s.phys table) (pdeAddr addr) (entryOf table) })

def doNoPage (s : Ram) (addr : Nat) : Kernel Ram := do
  let (table, s) ← tableFor s addr
  assert (table ≠ 0) "pt_addr != 0"
  let pte := table + addr / pageSize % 1024 * 4
  assert (word s.phys pte = 0) "*p_pte == 0"
  let (page, mem) ← allocPage s.mem
  pure { mem := mem, phys := poke s.phys pte (entryOf page) }

/-- do_wp_page; for a frame of alloc_page it prints and spins. -/
def doWpPage (s : Ram) (addr : Nat) : Kernel Ram := do
  let paddr := pageAddr s.phys addr
  if paddr < lowMem then
    let pte := pteAddr s.phys addr
    let (page, mem) ← allocPage s.mem
    let phys ← memcpyPage s.phys page (frameOf (word s.phys pte))
    pure { mem := mem, phys := poke phys pte (entryOf page) }
  else .error (.panic "OH~~~no~wp-page")

/-! ## Words in memory -/

section Words

variable {phys phys' : Phys} {a b w i : Nat}

theorem poke_of_lt (h : i < a) : poke phys a w i = phys i :=
  if_neg fun hi => absurd hi.1 (not_le.mpr h)

theorem poke_of_le (h : a + 4 ≤ i) : poke phys a w i = phys i :=
  if_neg fun hi => absurd hi.2 (not_lt.mpr h)

/-- A write to another page of four-byte words. -/
theorem poke_of_not_mem (h : i < a ∨ a + 4 ≤ i) : poke phys a w i = phys i :=
  h.elim poke_of_lt poke_of_le

theorem word_congr (h : ∀ i, a ≤ i → i < a + 4 → phys' i = phys i) :
    word phys' a = word phys a :=
  wordAt_congr fun i hi => h (a + i) (Nat.le_add_right a i) (Nat.add_lt_add_left hi a)

theorem word_poke_self (hw : w < 2 ^ 32) : word (poke phys a w) a = w := by
  refine wordAt_byteOf_nat le_rfl hw fun i hi => ?_
  have hin : a ≤ a + i ∧ a + i < a + 4 := ⟨Nat.le_add_right a i, Nat.add_lt_add_left hi a⟩
  rw [poke, if_pos hin, Nat.add_sub_cancel_left]

theorem word_poke_of_disjoint (h : b + 4 ≤ a ∨ a + 4 ≤ b) :
    word (poke phys a w) b = word phys b := by
  apply word_congr
  intro i hi hi'
  apply poke_of_not_mem
  omega

theorem word_lt (phys : Phys) (a : Nat) : word phys a < 2 ^ 32 := wordAt_lt phys a 4

theorem copyPage_of_not_mem {dst src : Nat} (h : i < dst ∨ dst + pageSize ≤ i) :
    copyPage phys dst src i = phys i := by
  apply if_neg
  omega

theorem copyPage_apply {dst src : Nat} (h : i < pageSize) :
    copyPage phys dst src (dst + i) = phys (src + i) := by
  have hin : dst ≤ dst + i ∧ dst + i < dst + pageSize :=
    ⟨Nat.le_add_right dst i, Nat.add_lt_add_left h dst⟩
  rw [copyPage, if_pos hin, Nat.add_sub_cancel_left]

theorem zeroPage_of_not_mem {dst : Nat} (h : i < dst ∨ dst + pageSize ≤ i) :
    zeroPage phys dst i = phys i := by
  apply if_neg
  omega

end Words

/-! ## Entries -/

section Entries

variable {w page : Nat}

theorem frameOf_mul (k : Nat) : frameOf (k * pageSize) = k * pageSize := by
  rw [frameOf, Nat.mul_div_cancel _ (by decide)]

theorem entryOf_lt (h : page < 2 ^ 32) : entryOf page < 2 ^ 32 := by
  simp only [entryOf, frameOf, pageSize]
  omega

theorem frameOf_entryOf (page : Nat) : frameOf (entryOf page) = frameOf page := by
  simp only [entryOf, frameOf, pageSize]
  omega

theorem present_entryOf (page : Nat) : present (entryOf page) = true := by
  apply decide_eq_true
  simp only [entryOf, frameOf, pageSize]
  omega

theorem writable_entryOf (page : Nat) : writable (entryOf page) = true := by
  apply decide_eq_true
  simp only [entryOf, frameOf, pageSize]
  omega

theorem protectEntry_le (w : Nat) : protectEntry w ≤ w := by
  unfold protectEntry
  split_ifs
  · exact Nat.sub_le w 2
  · exact le_rfl

theorem frameOf_protectEntry (w : Nat) : frameOf (protectEntry w) = frameOf w := by
  unfold protectEntry
  split_ifs with h
  · simp only [writable, decide_eq_true_eq] at h
    simp only [frameOf, pageSize]
    omega
  · rfl

theorem present_protectEntry (w : Nat) : present (protectEntry w) = present w := by
  unfold protectEntry
  split_ifs with h
  · simp only [writable, decide_eq_true_eq] at h
    simp only [present, decide_eq_decide]
    omega
  · rfl

end Entries

/-! ## What the three functions do -/

/-- The frame number alloc_page hands out is 256 above its index in mem_map. -/
theorem allocPage_ok {s s' : Mem} {page : Nat} (h : allocPage s = .ok (page, s')) :
    ∃ k < nrPages, page = lowMem + k * pageSize ∧ s.memMap k = 0 ∧
      s' = { s with memMap := Function.update s.memMap k 1 } := by
  obtain ⟨k, hpage, -, hk, hrun, -, hs⟩ := allocPages_ok h
  have hone : require 0 = 1 := rfl
  rw [hone] at hk hrun hs
  have hfree : s.memMap k = 0 := hrun k le_rfl (Nat.lt_succ_self k)
  refine ⟨k, hk, hpage, hfree, hs.trans ?_⟩
  congr 1
  funext j
  rw [onRun_apply, Function.update_apply]
  by_cases hj : j = k
  · rw [if_pos (by omega), if_pos hj, hj, hfree]
    rfl
  · rw [if_neg (by omega), if_neg hj]

/-- Frames that are in use stay so. -/
theorem allocPage_used {s s' : Mem} {page k : Nat} (h : allocPage s = .ok (page, s'))
    (hk : s.memMap k ≠ 0) : s'.memMap k ≠ 0 := by
  obtain ⟨j, -, -, hfree, rfl⟩ := allocPage_ok h
  have hne : k ≠ j := fun heq => hk (heq ▸ hfree)
  show Function.update s.memMap j 1 k ≠ 0
  rwa [Function.update_of_ne hne]

theorem page_eq (k : Nat) : lowMem + k * pageSize = (256 + k) * pageSize := by
  simp only [lowMem, pageSize]
  omega

section Tables

variable {phys : Phys} {fromPage toPage n i : Nat}

theorem copyTable_of_not_mem (h : i < toPage ∨ toPage + 4 * n ≤ i) :
    copyTable n fromPage toPage phys i = phys i := by
  induction n generalizing fromPage toPage phys with
  | zero => rfl
  | succ n ih =>
    rw [copyTable, ih (by omega)]
    apply poke_of_not_mem
    omega

/-- A table copied to another place: every entry, without its write bit. -/
theorem word_copyTable (hapart : fromPage + 4 * n ≤ toPage ∨ toPage + 4 * n ≤ fromPage)
    {j : Nat} (hj : j < n) : word (copyTable n fromPage toPage phys) (toPage + 4 * j) =
      protectEntry (word phys (fromPage + 4 * j)) := by
  induction n generalizing fromPage toPage phys j with
  | zero => cases hj
  | succ n ih =>
    rw [copyTable]
    cases j with
    | zero =>
      have hlt : protectEntry (word phys fromPage) < 2 ^ 32 :=
        (protectEntry_le _).trans_lt (word_lt phys fromPage)
      have hkeep : word (copyTable n (fromPage + 4) (toPage + 4)
          (poke phys toPage (protectEntry (word phys fromPage)))) toPage =
          word (poke phys toPage (protectEntry (word phys fromPage))) toPage := by
        apply word_congr
        intro i hi hi'
        exact copyTable_of_not_mem (.inl (by omega))
      show word _ toPage = protectEntry (word phys fromPage)
      rw [hkeep, word_poke_self hlt]
    | succ j =>
      have hnext := @ih (poke phys toPage (protectEntry (word phys fromPage)))
        (fromPage + 4) (toPage + 4) (by omega) j (by omega)
      rw [show toPage + 4 * (j + 1) = toPage + 4 + 4 * j by omega, hnext,
        word_poke_of_disjoint (by omega)]
      rw [show fromPage + 4 * (j + 1) = fromPage + 4 + 4 * j by omega]

end Tables

variable {s s' : Ram} {addr : Nat}

theorem shareVma_ok {fromAddr toAddr size : Nat} (h : shareVma s fromAddr toAddr size = .ok s') :
    word s.phys (pdeAddr toAddr) = 0 ∧ ∃ page phys₁ phys₂,
      allocPage s.mem = .ok (page, s'.mem) ∧
      phys₁ = poke s.phys (pdeAddr toAddr) (entryOf page) ∧
      phys₂ = copyTable 1024 (frameOf (word phys₁ (pdeAddr fromAddr)))
        (frameOf (word phys₁ (pdeAddr toAddr))) phys₁ ∧
      s'.phys = poke phys₂ (frameOf (word phys₂ (pdeAddr toAddr)) + 4 * videoEntry)
        (unprotectEntry (word phys₂ (frameOf (word phys₂ (pdeAddr toAddr)) + 4 * videoEntry))) := by
  simp only [shareVma, bind_eq_ok, assert_eq_ok, pure_eq_ok, Except.ok.injEq] at h
  obtain ⟨_, -, _, -, _, hzero, ⟨page, mem⟩, halloc, rfl⟩ := h
  exact ⟨hzero, page, _, _, halloc, rfl, rfl, rfl⟩

theorem tableFor_ok {table : Nat} (h : tableFor s addr = .ok (table, s')) :
    (present (word s.phys (pdeAddr addr)) = true ∧ table = frameOf (word s.phys (pdeAddr addr)) ∧
      s' = s) ∨
    present (word s.phys (pdeAddr addr)) = false ∧ allocPage s.mem = .ok (table, s'.mem) ∧
      s'.phys = poke (zeroPage s.phys table) (pdeAddr addr) (entryOf table) := by
  unfold tableFor at h
  split_ifs at h with hpresent
  · simp only [pure_eq_ok, Except.ok.injEq, Prod.mk.injEq] at h
    exact .inl ⟨hpresent, h.1.symm, h.2.symm⟩
  · simp only [bind_eq_ok, pure_eq_ok, Except.ok.injEq, Prod.mk.injEq] at h
    obtain ⟨⟨table, mem⟩, halloc, rfl, rfl⟩ := h
    exact .inr ⟨by simpa using hpresent, halloc, rfl⟩

theorem doNoPage_ok (h : doNoPage s addr = .ok s') :
    ∃ table s₁ page, tableFor s addr = .ok (table, s₁) ∧
      word s₁.phys (table + addr / pageSize % 1024 * 4) = 0 ∧
      allocPage s₁.mem = .ok (page, s'.mem) ∧
      s'.phys = poke s₁.phys (table + addr / pageSize % 1024 * 4) (entryOf page) := by
  simp only [doNoPage, bind_eq_ok, assert_eq_ok, pure_eq_ok, Except.ok.injEq] at h
  obtain ⟨⟨table, s₁⟩, htable, _, -, _, hzero, ⟨page, mem⟩, halloc, rfl⟩ := h
  exact ⟨table, s₁, page, htable, hzero, halloc, rfl⟩

theorem memcpyPage_ok {phys phys' : Phys} {dst src : Nat}
    (h : memcpyPage phys dst src = .ok phys') : src ≠ 0 ∧ phys' = copyPage phys dst src := by
  simp only [memcpyPage, bind_eq_ok, assert_eq_ok, pure_eq_ok, Except.ok.injEq] at h
  obtain ⟨_, -, _, hsrc, _, -, rfl⟩ := h
  exact ⟨hsrc, rfl⟩

/-- A page below another one that is not the first is copied. -/
theorem memcpyPage_eq {phys : Phys} {dst src : Nat} (hsrc : src ≠ 0) (h : src + pageSize ≤ dst) :
    memcpyPage phys dst src = .ok (copyPage phys dst src) := by
  have hdst : dst ≠ 0 := by omega
  rw [memcpyPage, assert_pos hdst, ok_bind, assert_pos hsrc, ok_bind, assert_pos (.inr h), ok_bind]
  rfl

theorem doWpPage_ok (h : doWpPage s addr = .ok s') :
    pageAddr s.phys addr < lowMem ∧ ∃ page, allocPage s.mem = .ok (page, s'.mem) ∧
      s'.phys = poke (copyPage s.phys page (pageAddr s.phys addr)) (pteAddr s.phys addr)
        (entryOf page) := by
  unfold doWpPage at h
  dsimp only at h
  split_ifs at h with hlow
  simp only [bind_eq_ok, pure_eq_ok, Except.ok.injEq] at h
  obtain ⟨⟨page, mem⟩, halloc, phys, hcopy, rfl⟩ := h
  rw [(memcpyPage_ok hcopy).2]
  exact ⟨hlow, page, halloc, rfl⟩

/-- memcpy asks for a source, so the frame is not the first one. -/
theorem doWpPage_frame (h : doWpPage s addr = .ok s') : pageAddr s.phys addr ≠ 0 := by
  unfold doWpPage at h
  dsimp only at h
  split_ifs at h with hlow
  obtain ⟨⟨page, mem⟩, -, hrest⟩ := bind_eq_ok.mp h
  obtain ⟨phys, hcopy, -⟩ := bind_eq_ok.mp hrest
  exact (memcpyPage_ok hcopy).1

/-! ## The page directory -/

/-- Entry `i` of the page directory. -/
def pde (phys : Phys) (i : Nat) : Nat := word phys (4 * i)

/-- The entry of the directory that an address goes through. -/
def pdeIndex (vaddr : Nat) : Nat := vaddr / 2 ^ 22

theorem pdeAddr_eq (vaddr : Nat) : pdeAddr vaddr = 4 * pdeIndex vaddr := Nat.mul_comm _ _

section Directory

variable {phys phys' : Phys} {i j a w page : Nat}

/-- Only the first page holds the directory. -/
theorem pde_congr (hi : i < 1024) (h : ∀ x < pageSize, phys' x = phys x) :
    pde phys' i = pde phys i := by
  apply word_congr
  intro x _ hx
  apply h
  simp only [pageSize]
  omega

theorem pde_poke (i : Nat) (hw : w < 2 ^ 32) :
    pde (poke phys (4 * j) w) i = if i = j then w else pde phys i := by
  by_cases hij : i = j
  · rw [if_pos hij, hij]
    exact word_poke_self hw
  · rw [if_neg hij]
    apply word_poke_of_disjoint
    omega

theorem pde_poke_of_le (hi : i < 1024) (ha : pageSize ≤ a) : pde (poke phys a w) i = pde phys i :=
  pde_congr hi fun _ hx => poke_of_lt (hx.trans_le ha)

theorem pageSize_le_alloc {s s' : Mem} (h : allocPage s = .ok (page, s')) :
    pageSize ≤ page ∧ page < 2 ^ 32 ∧ frameOf page = page := by
  obtain ⟨k, hk, rfl, -, -⟩ := allocPage_ok h
  have hbound : k < 3840 := hk
  rw [page_eq]
  refine ⟨?_, ?_, frameOf_mul _⟩ <;>
  · simp only [pageSize]
    omega

/-- share_vma makes one entry of the directory. -/
theorem shareVma_pde {fromAddr toAddr size : Nat} (hfrom : pdeIndex toAddr < 1024)
    (h : shareVma s fromAddr toAddr size = .ok s') : pde s.phys (pdeIndex toAddr) = 0 ∧
      ∃ page, allocPage s.mem = .ok (page, s'.mem) ∧ ∀ i < 1024, pde s'.phys i =
        if i = pdeIndex toAddr then entryOf page else pde s.phys i := by
  obtain ⟨hzero, page, phys₁, phys₂, halloc, h₁, h₂, h'⟩ := shareVma_ok h
  obtain ⟨hpage, hlt, hframe⟩ := pageSize_le_alloc halloc
  rw [pdeAddr_eq] at hzero
  refine ⟨hzero, page, halloc, ?_⟩
  have hdir₁ : ∀ i < 1024, pde phys₁ i =
      if i = pdeIndex toAddr then entryOf page else pde s.phys i := by
    intro i _
    rw [h₁, pdeAddr_eq]
    exact pde_poke i (entryOf_lt hlt)
  have hto : frameOf (word phys₁ (pdeAddr toAddr)) = page := by
    have hentry := hdir₁ _ hfrom
    rw [if_pos rfl] at hentry
    rw [pdeAddr_eq, show word phys₁ (4 * pdeIndex toAddr) = entryOf page from hentry,
      frameOf_entryOf, hframe]
  -- the table itself lies above the directory
  have hdir₂ : ∀ i < 1024, pde phys₂ i = pde phys₁ i := by
    intro i hi
    rw [h₂, hto]
    exact pde_congr hi fun x hx => copyTable_of_not_mem (.inl (hx.trans_le hpage))
  intro i hi
  have hto₂ : frameOf (word phys₂ (pdeAddr toAddr)) = page := by
    rw [pdeAddr_eq, show word phys₂ (4 * pdeIndex toAddr) = pde phys₁ (pdeIndex toAddr) from
      hdir₂ _ hfrom, hdir₁ _ hfrom, if_pos rfl, frameOf_entryOf, hframe]
  rw [h', hto₂, pde_poke_of_le hi (hpage.trans (Nat.le_add_right _ _)), hdir₂ i hi, hdir₁ i hi]

/-- do_no_page leaves the directory alone, or puts a new table behind the entry its address goes
through. -/
theorem doNoPage_dir
    (htable : present (pde s.phys (pdeIndex addr)) = true →
      pageSize ≤ frameOf (pde s.phys (pdeIndex addr)))
    (h : doNoPage s addr = .ok s') :
    (present (pde s.phys (pdeIndex addr)) = true ∧ (∀ i < 1024, pde s'.phys i = pde s.phys i) ∧
      ∀ k, s.mem.memMap k ≠ 0 → s'.mem.memMap k ≠ 0) ∨
    ∃ table mem, allocPage s.mem = .ok (table, mem) ∧
      (∀ i < 1024, pde s'.phys i = if i = pdeIndex addr then entryOf table else pde s.phys i) ∧
      ∀ k, mem.memMap k ≠ 0 → s'.mem.memMap k ≠ 0 := by
  obtain ⟨table, s₁, page, htab, -, halloc, h'⟩ := doNoPage_ok h
  have hlow : ∀ i < 1024, pageSize ≤ table → pde s'.phys i = pde s₁.phys i := by
    intro i hi hle
    rw [h']
    exact pde_poke_of_le hi (hle.trans (Nat.le_add_right _ _))
  rcases tableFor_ok htab with ⟨hp, rfl, rfl⟩ | ⟨-, hal, hphys⟩
  · rw [pdeAddr_eq] at hp hlow
    exact .inl ⟨hp, fun i hi => hlow i hi (htable hp), fun k hk => allocPage_used halloc hk⟩
  · obtain ⟨hle, hlt, hframe⟩ := pageSize_le_alloc hal
    have hdir : ∀ i < 1024, pde s₁.phys i =
        if i = pdeIndex addr then entryOf table else pde s.phys i := by
      intro i hi
      rw [hphys, pdeAddr_eq, pde_poke i (entryOf_lt hlt)]
      congr 1
      exact pde_congr hi fun x hx => zeroPage_of_not_mem (.inl (hx.trans_le hle))
    refine .inr ⟨table, s₁.mem, hal, fun i hi => ?_, fun k hk => allocPage_used halloc hk⟩
    rw [hlow i hi hle, hdir i hi]

/-- do_no_page makes at most the entry its address goes through. -/
theorem doNoPage_pde (haddr : pdeIndex addr < 1024)
    (htable : present (pde s.phys (pdeIndex addr)) = true →
      pageSize ≤ frameOf (pde s.phys (pdeIndex addr)))
    (h : doNoPage s addr = .ok s') :
    (∀ i < 1024, i ≠ pdeIndex addr → pde s'.phys i = pde s.phys i) ∧
      pageSize ≤ frameOf (pde s'.phys (pdeIndex addr)) ∧
      ∀ k, s.mem.memMap k ≠ 0 → s'.mem.memMap k ≠ 0 := by
  rcases doNoPage_dir htable h with ⟨hp, hdir, hused⟩ | ⟨table, mem, hal, hdir, hused⟩
  · refine ⟨fun i hi _ => hdir i hi, ?_, hused⟩
    rw [hdir _ haddr]
    exact htable hp
  · obtain ⟨hle, -, hframe⟩ := pageSize_le_alloc hal
    refine ⟨fun i hi hne => ?_, ?_, fun k hk => hused k (allocPage_used hal hk)⟩
    · rw [hdir i hi, if_neg hne]
    · rw [hdir _ haddr, if_pos rfl, frameOf_entryOf, hframe]
      exact hle

end Directory

end RxdOs.Mm.Paging
