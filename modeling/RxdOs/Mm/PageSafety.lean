/- RxdOs/Mm/PageSafety
   source: mm/memory.c
   digest: The frame allocator over whole runs: live blocks are disjoint and inside the
   managed range, and mem_map counts exactly them. -/

import RxdOs.Lib.Execution
import RxdOs.Lib.Ownership
import RxdOs.Mm.Memory

set_option autoImplicit false
set_option relaxedAutoImplicit false

namespace RxdOs.Mm.PageSafety

open RxdOs.Base.Assert RxdOs.Lib.Execution RxdOs.Lib.Ownership RxdOs.Mm.Memory

/-- What alloc_pages handed out: an address and the order it was asked for. -/
abbrev Block := Nat × Nat

/-- The allocator together with the blocks its callers hold. -/
structure Client where
  mem : Mem
  live : List Block

inductive Call
  | alloc (order : Nat)
  | free (addr order : Nat)

/-- One returning call; a caller frees only what it holds. -/
inductive Step : Client → Call → Client → Prop
  | alloc {c : Client} {order page : Nat} {mem : Mem} :
      allocPages c.mem order = .ok (page, mem) →
      Step c (.alloc order) ⟨mem, (page, order) :: c.live⟩
  | free {c : Client} {addr order : Nat} {mem : Mem} :
      (addr, order) ∈ c.live → freePages c.mem addr order = .ok mem →
      Step c (.free addr order) ⟨mem, c.live.erase (addr, order)⟩

/-- The indices of a block in mem_map. -/
def frames (b : Block) : Set Nat := {i | mmi b.1 ≤ i ∧ i < mmi b.1 + require b.2}

/-- The bytes of a block. -/
def bytes (b : Block) : Set Nat := {x | b.1 ≤ x ∧ x < b.1 + require b.2 * pageSize}

/-- Frame `i` lies in `[mem_start, mem_end]`. -/
def Managed (memStart memEnd i : Nat) : Prop :=
  memStart ≤ lowMem + i * pageSize ∧ lowMem + i * pageSize ≤ memEnd

structure Safe (memStart memEnd : Nat) (c : Client) : Prop where
  disjoint : c.live.Pairwise fun b b' => Disjoint (bytes b) (bytes b')
  aligned : ∀ b ∈ c.live, b.1 % pageSize = 0
  inside : ∀ b ∈ c.live, ∀ x ∈ bytes b, memStart ≤ x ∧ x ≤ memEnd
  counted : ∀ i < nrPages, Managed memStart memEnd i →
    (c.mem.memMap i = 1 ↔ Owned frames c.live i) ∧ (c.mem.memMap i = 0 ↔ ¬Owned frames c.live i)
  reserved : ∀ i < nrPages, ¬Managed memStart memEnd i →
    c.mem.memMap i = reservedPage ∧ ¬Owned frames c.live i

/-- The invariant in terms of frame indices; `lo .. hi - 1` are the managed frames. -/
structure Inv (lo hi : Nat) (c : Client) : Prop where
  placed : ∀ b ∈ c.live, ∃ k, b.1 = lowMem + k * pageSize ∧ lo ≤ k ∧ k + require b.2 ≤ hi
  exclusive : Exclusive frames c.live
  owned : ∀ i, lo ≤ i → i < hi → Owned frames c.live i → c.mem.memMap i = 1
  free : ∀ i, lo ≤ i → i < hi → ¬Owned frames c.live i → c.mem.memMap i = 0
  reserved : ∀ i < nrPages, ¬(lo ≤ i ∧ i < hi) → c.mem.memMap i = reservedPage

variable {lo hi : Nat} {c c' : Client}

theorem mem_frames {k order i : Nat} (hk : k ≤ nrPages) :
    i ∈ frames (lowMem + k * pageSize, order) ↔ k ≤ i ∧ i < k + require order := by
  simp only [frames, Set.mem_ofPred_eq, mmi_frame hk]

theorem Inv.owned_bounds (h : Inv lo hi c) (hhi : hi ≤ nrPages) {i : Nat}
    (hown : Owned frames c.live i) : lo ≤ i ∧ i < hi := by
  obtain ⟨⟨addr, order⟩, hb, hib⟩ := hown
  obtain ⟨k, haddr, hlo, hle⟩ := h.placed _ hb
  simp only at haddr hle
  subst haddr
  have hmem := (mem_frames (by omega)).mp hib
  omega

/-- A free run lies inside the managed range and meets no live block. -/
theorem Inv.freeRun (h : Inv lo hi c) {k n : Nat} (hn : 0 < n) (hk : k + n ≤ nrPages)
    (hrun : FreeRun c.mem.memMap k n) :
    (lo ≤ k ∧ k + n ≤ hi) ∧ ∀ i, k ≤ i → i < k + n → ¬Owned frames c.live i := by
  have hmanaged : ∀ i, k ≤ i → i < k + n → lo ≤ i ∧ i < hi := by
    intro i hki hik
    by_contra hout
    have hres := h.reserved i (by omega) hout
    rw [hrun i hki hik] at hres
    exact absurd hres (by decide)
  refine ⟨⟨(hmanaged k le_rfl (by omega)).1, ?_⟩, ?_⟩
  · have := hmanaged (k + n - 1) (by omega) (by omega)
    omega
  · intro i hki hik hown
    have hb := hmanaged i hki hik
    have hone := h.owned i hb.1 hb.2 hown
    rw [hrun i hki hik] at hone
    exact absurd hone (by decide)

theorem Inv.alloc (h : Inv lo hi c) {order page : Nat} {mem : Mem}
    (hal : allocPages c.mem order = .ok (page, mem)) :
    Inv lo hi ⟨mem, (page, order) :: c.live⟩ := by
  obtain ⟨k, rfl, -, hk, hrun, -, rfl⟩ := allocPages_ok hal
  obtain ⟨⟨hlo, hle⟩, hfresh⟩ := h.freeRun (require_pos order) hk hrun
  have hframes : ∀ i, i ∈ frames (lowMem + k * pageSize, order) ↔ k ≤ i ∧ i < k + require order :=
    fun i => mem_frames (by omega)
  refine ⟨?_, ?_, ?_, ?_, ?_⟩
  · intro b hb
    rcases List.mem_cons.mp hb with rfl | hb
    · exact ⟨k, rfl, hlo, hle⟩
    · exact h.placed b hb
  · refine h.exclusive.cons fun i hib => ?_
    have := (hframes i).mp hib
    exact hfresh i this.1 this.2
  · intro i hloi hihi hown
    rw [owned_cons, hframes] at hown
    simp only [onRun_apply]
    by_cases hrange : k ≤ i ∧ i < k + require order
    · rw [if_pos hrange, hrun i hrange.1 hrange.2]
      rfl
    · rw [if_neg hrange]
      exact h.owned i hloi hihi (hown.resolve_left hrange)
  · intro i hloi hihi hown
    rw [owned_cons, hframes, not_or] at hown
    simp only [onRun_apply]
    rw [if_neg hown.1]
    exact h.free i hloi hihi hown.2
  · intro i hin hout
    simp only [onRun_apply]
    rw [if_neg (by omega)]
    exact h.reserved i hin hout

theorem Inv.release (h : Inv lo hi c) (hhi : hi ≤ nrPages) {addr order : Nat} {mem : Mem}
    (hb : (addr, order) ∈ c.live) (hfr : freePages c.mem addr order = .ok mem) :
    Inv lo hi ⟨mem, c.live.erase (addr, order)⟩ := by
  obtain ⟨-, rfl⟩ := freePages_ok hfr
  obtain ⟨k, haddr, hlo, hle⟩ := h.placed _ hb
  simp only at haddr hle
  subst haddr
  have hframes : ∀ i, i ∈ frames (lowMem + k * pageSize, order) ↔ k ≤ i ∧ i < k + require order :=
    fun i => mem_frames (by omega)
  have hown : ∀ i, Owned frames (c.live.erase (lowMem + k * pageSize, order)) i ↔
      Owned frames c.live i ∧ ¬(k ≤ i ∧ i < k + require order) := by
    intro i
    rw [h.exclusive.owned_erase hb, hframes]
  simp only [mmi_frame (show k ≤ nrPages by omega)]
  refine ⟨fun b hb' => h.placed b (List.mem_of_mem_erase hb'), h.exclusive.erase hb, ?_, ?_, ?_⟩
  · intro i hloi hihi hi'
    obtain ⟨hi', hrange⟩ := (hown i).mp hi'
    simp only [onRun_apply]
    rw [if_neg hrange]
    exact h.owned i hloi hihi hi'
  · intro i hloi hihi hi'
    simp only [onRun_apply]
    by_cases hrange : k ≤ i ∧ i < k + require order
    · -- the frames given back were counted once
      rw [if_pos hrange, h.owned i hloi hihi ⟨_, hb, (hframes i).mpr hrange⟩]
      rfl
    · rw [if_neg hrange]
      exact h.free i hloi hihi fun hc => hi' ((hown i).mpr ⟨hc, hrange⟩)
  · intro i hin hout
    simp only [onRun_apply]
    rw [if_neg (by omega)]
    exact h.reserved i hin hout

theorem Inv.step (h : Inv lo hi c) (hhi : hi ≤ nrPages) {a : Call} (hst : Step c a c') :
    Inv lo hi c' := by
  cases hst with
  | alloc hal => exact h.alloc hal
  | free hb hfr => exact h.release hhi hb hfr

/-! ## From mem_init -/

/-- mem_init frees exactly the frames between the two addresses and reserves the others. -/
theorem memInit_ok {s s0 : Mem} {memStart memEnd : Nat} (h : memInit s memStart memEnd = .ok s0) :
    (lowMem ≤ memStart ∧ memStart < memEnd ∧ memEnd < lowMem + totalMem) ∧
      s0.highMemory = memEnd ∧
      ∀ i < nrPages, s0.memMap i =
        if mmi memStart ≤ i ∧ i < mmi memEnd + 1 then 0 else reservedPage := by
  simp only [memInit, bind_eq_ok, assert_eq_ok, pure_eq_ok, Except.ok.injEq] at h
  obtain ⟨_, hassert, rfl⟩ := h
  refine ⟨hassert, rfl, fun i hi => ?_⟩
  simp only [setMap_apply]
  have hall : 0 ≤ i ∧ i < 0 + nrPages := by omega
  rw [if_pos hall]
  exact if_congr (by omega) rfl rfl

theorem mmi_lt {addr : Nat} (hlo : lowMem ≤ addr) (hhi : addr < lowMem + totalMem) :
    mmi addr < nrPages ∧ lowMem + mmi addr * pageSize ≤ addr ∧
      addr < lowMem + mmi addr * pageSize + pageSize := by
  simp only [mmi, lowMem, nrPages, totalMem, pageSize] at *
  omega

theorem inv_init {s s0 : Mem} {memStart memEnd : Nat} (h : memInit s memStart memEnd = .ok s0) :
    Inv (mmi memStart) (mmi memEnd + 1) ⟨s0, []⟩ := by
  obtain ⟨-, -, hmap⟩ := memInit_ok h
  obtain ⟨⟨hlow, hlt, htop⟩, -, -⟩ := memInit_ok h
  have hend := (mmi_lt (show lowMem ≤ memEnd by omega) htop).1
  refine ⟨by simp, exclusive_nil, by simp, ?_, ?_⟩
  · intro i hlo hhi _
    rw [hmap i (by omega), if_pos ⟨hlo, hhi⟩]
  · intro i hi hout
    rw [hmap i hi, if_neg hout]

/-- A byte of a live block, by the frame it lies in. -/
theorem Inv.mem_bytes (h : Inv lo hi c) (hhi : hi ≤ nrPages) {b : Block} (hb : b ∈ c.live)
    {x : Nat} (hx : x ∈ bytes b) :
    lowMem + lo * pageSize ≤ x ∧ x < lowMem + hi * pageSize ∧
      (x - lowMem) / pageSize ∈ frames b := by
  obtain ⟨addr, order⟩ := b
  obtain ⟨k, haddr, hlo, hle⟩ := h.placed _ hb
  simp only at haddr hle
  subst haddr
  simp only [bytes, Set.mem_ofPred_eq] at hx
  rw [mem_frames (by omega)]
  obtain ⟨y, rfl⟩ : ∃ y, x = lowMem + y := ⟨x - lowMem, by omega⟩
  generalize require order = n at hx hle ⊢
  rw [Nat.add_sub_cancel_left]
  simp only [pageSize] at hx ⊢
  exact ⟨by omega, by omega, by omega, by omega⟩

theorem Inv.bytes_disjoint (h : Inv lo hi c) (hhi : hi ≤ nrPages) :
    c.live.Pairwise fun b b' => Disjoint (bytes b) (bytes b') := by
  refine List.Pairwise.imp_of_mem ?_ h.exclusive
  intro b b' hb hb' hdis
  rw [Set.disjoint_left] at hdis ⊢
  intro x hx hx'
  exact hdis (h.mem_bytes hhi hb hx).2.2 (h.mem_bytes hhi hb' hx').2.2

theorem Inv.safe {memStart memEnd : Nat} (hhi : hi ≤ nrPages)
    (hstart : lowMem + lo * pageSize = memStart) (hend : lowMem + hi * pageSize = memEnd + 1)
    (h : Inv lo hi c) : Safe memStart memEnd c := by
  have hmanaged : ∀ i, Managed memStart memEnd i ↔ lo ≤ i ∧ i < hi := by
    intro i
    simp only [Managed, pageSize] at hstart hend ⊢
    omega
  refine ⟨h.bytes_disjoint hhi, ?_, ?_, ?_, ?_⟩
  · intro b hb
    obtain ⟨k, hk, -, -⟩ := h.placed b hb
    simp only [hk, lowMem, pageSize]
    omega
  · intro b hb x hx
    have hx' := h.mem_bytes hhi hb hx
    omega
  · intro i _ hi
    obtain ⟨hlo, hlt⟩ := (hmanaged i).mp hi
    by_cases hown : Owned frames c.live i
    · simp [hown, h.owned i hlo hlt hown]
    · simp [hown, h.free i hlo hlt hown]
  · intro i hi hout
    rw [hmanaged] at hout
    exact ⟨h.reserved i hi hout, fun hown => hout (h.owned_bounds hhi hown)⟩

/-- The first managed frame starts at an aligned mem_start. -/
theorem frame_of_aligned {addr : Nat} (hlo : lowMem ≤ addr) (hhi : addr < lowMem + totalMem)
    (hal : addr % pageSize = 0) : lowMem + mmi addr * pageSize = addr := by
  have hm := mmi_lt hlo hhi
  generalize mmi addr = k at hm ⊢
  simp only [lowMem, pageSize] at *
  omega

/-- The last managed frame ends at an aligned `mem_end + 1`. -/
theorem frame_of_aligned_end {addr : Nat} (hlo : lowMem ≤ addr)
    (hhi : addr < lowMem + totalMem) (hal : (addr + 1) % pageSize = 0) :
    lowMem + (mmi addr + 1) * pageSize = addr + 1 := by
  have hm := mmi_lt hlo hhi
  generalize mmi addr = k at hm ⊢
  simp only [lowMem, pageSize] at *
  omega

/-- Page allocator safety, in every state reached from mem_init by returning calls. -/
theorem page_allocator_safe {s s0 : Mem} {memStart memEnd : Nat}
    (hinit : memInit s memStart memEnd = .ok s0)
    (hstart : memStart % pageSize = 0) (hend : (memEnd + 1) % pageSize = 0)
    {c : Client} (hreach : Reach Step ⟨s0, []⟩ c) : Safe memStart memEnd c := by
  obtain ⟨⟨hlow, hlt, htop⟩, -, -⟩ := memInit_ok hinit
  have hlowEnd : lowMem ≤ memEnd := hlow.trans hlt.le
  have hhi : mmi memEnd + 1 ≤ nrPages := (mmi_lt hlowEnd htop).1
  have hinv : Inv (mmi memStart) (mmi memEnd + 1) c :=
    hreach.inv (fun _ _ _ h hst => h.step hhi hst) (inv_init hinit)
  exact hinv.safe hhi (frame_of_aligned hlow (hlt.trans htop) hstart)
    (frame_of_aligned_end hlowEnd htop hend)

/-- kmain's range.  Eight frames are taken, then two behind them; the eight go back, and one of
them is taken again. -/
theorem page_allocator_safe_kmain : ∃ s0 : Mem, ∃ tr : List (Call × Client),
    memInit ⟨0, fun _ => 0⟩ 0x100000 0xffffff = .ok s0 ∧ Exec Step ⟨s0, []⟩ tr ∧
    tr.map Prod.fst = [.alloc 3, .alloc 1, .free 0x100000 3, .alloc 0] ∧
    (last ⟨s0, []⟩ tr).live = [(0x100000, 0), (0x108000, 1)] ∧
    Safe 0x100000 0xffffff (last ⟨s0, []⟩ tr) := by
  obtain ⟨s0, hinit⟩ : ∃ s0, memInit ⟨0, fun _ => 0⟩ 0x100000 0xffffff = .ok s0 := ⟨_, rfl⟩
  obtain ⟨-, hhigh, hmap⟩ := memInit_ok hinit
  have hzero : ∀ j < 16, s0.memMap j = 0 := by
    intro j hj
    rw [hmap j (by simp only [nrPages, totalMem, pageSize]; omega), if_pos]
    simp only [mmi, lowMem, pageSize]
    omega
  have hrun₃ : FreeRun s0.memMap 0 (require 3) := by
    intro j _ hj
    have hj8 : j < 8 := by simpa [require] using hj
    exact hzero j (by omega)
  have h₃ := @allocPages_first s0 3 0 (by decide) hrun₃ (by omega) (by rw [hhigh]; decide)
  generalize hs₁ : ({ s0 with memMap := onRun 0 (require 3) (· + 1) s0.memMap } : Mem) = s₁ at h₃
  have hmap₁ : ∀ j < 16, s₁.memMap j = if j < 8 then 1 else 0 := by
    intro j hj
    rw [← hs₁]
    show onRun 0 (require 3) (· + 1) s0.memMap j = _
    rw [onRun_apply, hzero j hj]
    exact if_congr (by simp [require]) rfl rfl
  have hrun₁ : FreeRun s₁.memMap 8 (require 1) := by
    intro j hle hj
    have hj10 : j < 10 := by simpa [require] using hj
    rw [hmap₁ j (by omega), if_neg (by omega)]
  have hfirst₁ : ∀ k < 8, ¬FreeRun s₁.memMap k (require 1) := by
    intro k hk hrun
    have hfree := hrun k le_rfl (Nat.lt_add_of_pos_right (require_pos 1))
    rw [hmap₁ k (by omega), if_pos hk] at hfree
    exact absurd hfree (by decide)
  have h₁ := @allocPages_first s₁ 1 8 (by decide) hrun₁ hfirst₁ (by rw [← hs₁, hhigh]; decide)
  generalize hs₂ : ({ s₁ with memMap := onRun 8 (require 1) (· + 1) s₁.memMap } : Mem) = s₂ at h₁
  have hfree : freePages s₂ 0x100000 3 =
      .ok { s₂ with memMap := onRun 0 (require 3) (· - 1) s₂.memMap } := by
    have hlt : (mmi 0x100000 + require 3) % 2 ^ 32 < nrPages := by decide
    rw [freePages, assert_pos hlt, ok_bind, unmark_spec]
    rfl
  generalize hs₃ : ({ s₂ with memMap := onRun 0 (require 3) (· - 1) s₂.memMap } : Mem) = s₃ at hfree
  have hrun₀ : FreeRun s₃.memMap 0 (require 0) := by
    intro j _ hj
    obtain rfl : j = 0 := by simpa [require] using hj
    have hone : s₁.memMap 0 = 1 := hmap₁ 0 (by decide)
    rw [← hs₃, ← hs₂]
    show onRun 0 (require 3) (· - 1) (onRun 8 (require 1) (· + 1) s₁.memMap) 0 = 0
    rw [onRun_apply, if_pos ⟨le_rfl, by decide⟩, onRun_apply, if_neg (by omega), hone]
    rfl
  have h₀ := @allocPages_first s₃ 0 0 (by decide) hrun₀ (by omega)
    (by rw [← hs₃, ← hs₂, ← hs₁, hhigh]; decide)
  have hexec : Exec Step ⟨s0, []⟩ [(.alloc 3, ⟨s₁, [(0x100000, 3)]⟩),
      (.alloc 1, ⟨s₂, [(0x108000, 1), (0x100000, 3)]⟩),
      (.free 0x100000 3, ⟨s₃, [(0x108000, 1)]⟩),
      (.alloc 0, ⟨_, [(0x100000, 0), (0x108000, 1)]⟩)] :=
    .cons (.alloc h₃) (.cons (.alloc h₁) (.cons (.free (by simp) hfree) (.cons (.alloc h₀) (.nil _))))
  exact ⟨s0, _, hinit, hexec, rfl, rfl, page_allocator_safe hinit rfl rfl hexec.reach⟩

end RxdOs.Mm.PageSafety
