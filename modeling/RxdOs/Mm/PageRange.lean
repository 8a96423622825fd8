/- RxdOs/Mm/PageRange
   source: mm/memory.c (mem_init, alloc_pages)
   digest: Which pages alloc_pages can hand out after mem_init on any two addresses, and
   when its own range assertion fires. -/

import RxdOs.Mm.PageFit

set_option autoImplicit false
set_option relaxedAutoImplicit false

namespace RxdOs.Mm.PageRange

open RxdOs.Base.Assert RxdOs.Lib.Execution RxdOs.Mm.Memory
open RxdOs.Mm.PageSafety (Client Inv bytes memInit_ok mmi_lt inv_init frame_of_aligned
  frame_of_aligned_end)
open RxdOs.Mm.PageFit (Fits First)

/-- One returning alloc_pages; nothing is given back. -/
inductive Take : Client → Nat → Client → Prop
  | mk {c : Client} {order page : Nat} {mem : Mem} :
      allocPages c.mem order = .ok (page, mem) → Take c order ⟨mem, (page, order) :: c.live⟩

/-- Every byte handed out is at or above `mem_start`. -/
def Above (memStart : Nat) (c : Client) : Prop := ∀ b ∈ c.live, ∀ x ∈ bytes b, memStart ≤ x

/-- Every byte handed out is at or below `mem_end`. -/
def Below (memEnd : Nat) (c : Client) : Prop := ∀ b ∈ c.live, ∀ x ∈ bytes b, x ≤ memEnd

/-- The range assertion does not fire while a run of free frames exists. -/
def Untripped (c : Client) : Prop := ∀ order, (∃ k, Fits c.mem.memMap (require order) k) →
  allocPages c.mem order ≠ .error (.assertFailed "page >= LOW_MEM && page < HIGH_MEMORY")

variable {lo hi memStart memEnd n : Nat} {s s₀ : Mem} {c c' : Client}

theorem inv_take (h : Inv lo hi c) {order : Nat} (hst : Take c order c') : Inv lo hi c' := by
  obtain ⟨halloc⟩ := hst
  exact h.alloc halloc

theorem take_highMemory {order : Nat} (hst : Take c order c') :
    c'.mem.highMemory = c.mem.highMemory := by
  obtain ⟨halloc⟩ := hst
  obtain ⟨k, -, -, -, -, -, rfl⟩ := allocPages_ok halloc
  rfl

theorem reach_highMemory (h : Reach Take c c') : c'.mem.highMemory = c.mem.highMemory := by
  induction h with
  | refl => rfl
  | tail _ hst ih =>
    obtain ⟨order, hst⟩ := hst
    exact (take_highMemory hst).trans ih

/-! ## What every run keeps -/

/-- The assertion fires exactly on a first run at or above HIGH_MEMORY. -/
theorem trip_iff (s : Mem) (order : Nat) :
    allocPages s order = .error (.assertFailed "page >= LOW_MEM && page < HIGH_MEMORY") ↔
      ∃ k, First s.memMap (require order) k ∧ s.highMemory ≤ lowMem + k * pageSize := by
  rw [PageFit.allocPages_eq]
  rcases PageFit.takePages_cases s order with ⟨k, hfirst, htake⟩ | ⟨hnone, htake⟩
  · rw [htake, ok_bind, PageFit.pageAddress_eq]
    constructor
    · intro htrip
      split_ifs at htrip with hlt
      exact ⟨k, hfirst, not_lt.mp hlt⟩
    · rintro ⟨k', hfirst', hle⟩
      obtain rfl : k = k' := le_antisymm (hfirst.le hfirst'.1) (hfirst'.le hfirst.1)
      rw [if_neg (not_lt.mpr hle)]
  · rw [htake, error_bind]
    refine ⟨fun htrip => ?_, fun ⟨k, hfirst, _⟩ => absurd hfirst.1 (hnone k)⟩
    cases htrip

/-- With an end inside a frame the last frame starts below HIGH_MEMORY. -/
theorem untripped_of_inv (h : Inv lo (mmi memEnd + 1) c) (hhigh : c.mem.highMemory = memEnd)
    (hlow : lowMem ≤ memEnd) (htop : memEnd < lowMem + totalMem)
    (hend : memEnd % pageSize ≠ 0) : Untripped c := by
  intro order _ htrip
  obtain ⟨k, hfirst, hle⟩ := (trip_iff _ _).mp htrip
  have hpos := require_pos order
  obtain ⟨⟨-, hk⟩, -⟩ := h.freeRun hpos hfirst.1.1 hfirst.1.2
  have hframe := (mmi_lt hlow htop).2.1
  rw [hhigh] at hle
  simp only [lowMem, pageSize] at hle hframe hend
  omega

theorem above_of_inv (h : Inv (mmi memStart) hi c) (hhi : hi ≤ nrPages)
    (hstart : lowMem + mmi memStart * pageSize = memStart) : Above memStart c := by
  intro b hb x hx
  have hx' := (h.mem_bytes hhi hb hx).1
  rwa [hstart] at hx'

theorem below_of_inv (h : Inv lo (mmi memEnd + 1) c) (hhi : mmi memEnd + 1 ≤ nrPages)
    (hend : lowMem + (mmi memEnd + 1) * pageSize = memEnd + 1) : Below memEnd c := by
  intro b hb x hx
  have hx' := (h.mem_bytes hhi hb hx).2.1
  rw [hend] at hx'
  exact Nat.lt_succ_iff.mp hx'

/-! ## Runs that use the frames up -/

/-- The managed frames from `k` on are free, all others are not. -/
structure UsedUpTo (hi k : Nat) (s : Mem) : Prop where
  free : ∀ j, k ≤ j → j < hi → s.memMap j = 0
  used : ∀ j < nrPages, ¬(k ≤ j ∧ j < hi) → s.memMap j ≠ 0

theorem UsedUpTo.first {k : Nat} (h : UsedUpTo hi k s) (hhi : hi ≤ nrPages) (order : Nat)
    (hk : k + require order ≤ hi) : First s.memMap (require order) k := by
  have hpos := require_pos order
  refine ⟨⟨by omega, fun j hj hj' => h.free j hj (by omega)⟩, fun k' hk' hfits => ?_⟩
  exact h.used k' (by omega) (by omega) (hfits.2 k' le_rfl (by omega))

/-- The next block starts with the lowest free frame. -/
theorem UsedUpTo.take {k : Nat} (h : UsedUpTo hi k c.mem) (hhi : hi ≤ nrPages) (order : Nat)
    (hk : k + require order ≤ hi) (hhigh : lowMem + k * pageSize < c.mem.highMemory) :
    ∃ c', Take c order c' ∧ UsedUpTo hi (k + require order) c'.mem ∧
      (lowMem + k * pageSize, order) ∈ c'.live := by
  have hfirst := h.first hhi order hk
  have hnone : ∀ k' < k, ¬FreeRun c.mem.memMap k' (require order) := fun k' hk' hrun =>
    hfirst.2 k' hk' ⟨by omega, hrun⟩
  refine ⟨_, .mk (allocPages_first hfirst.1.1 hfirst.1.2 hnone hhigh), ⟨?_, ?_⟩, List.mem_cons_self ..⟩
  · intro j hj hj'
    simp only [onRun_apply]
    rw [if_neg (by omega)]
    exact h.free j (by omega) hj'
  · intro j hj hout
    simp only [onRun_apply]
    split_ifs with hin
    · rw [hfirst.1.2 j hin.1 hin.2]
      decide
    · exact h.used j hj (by omega)

/-- Page by page up to any frame that starts below HIGH_MEMORY. -/
theorem UsedUpTo.pages (h : UsedUpTo hi lo c.mem) (hhi : hi ≤ nrPages) (n : Nat) (hn : lo + n < hi)
    (hhigh : lowMem + (lo + n) * pageSize ≤ c.mem.highMemory) :
    ∃ c', Reach Take c c' ∧ UsedUpTo hi (lo + n) c'.mem ∧
      c'.mem.highMemory = c.mem.highMemory := by
  induction n with
  | zero => exact ⟨c, .refl, h, rfl⟩
  | succ n ih =>
    have hpage : 0 < pageSize := by decide
    have hbelow : lowMem + (lo + n) * pageSize < lowMem + (lo + (n + 1)) * pageSize := by
      simp only [pageSize]
      omega
    obtain ⟨c₁, hreach, hused, hhigh₁⟩ := ih (by omega) (hbelow.le.trans hhigh)
    have hone : require 0 = 1 := rfl
    obtain ⟨c₂, htake, hused₂, -⟩ := hused.take hhi 0 (by rw [hone]; omega)
      (by rw [hhigh₁]; exact hbelow.trans_le hhigh)
    exact ⟨c₂, hreach.tail ⟨0, htake⟩, hused₂, (take_highMemory htake).trans hhigh₁⟩

/-- A block that ends with the last frame is handed out when it starts below HIGH_MEMORY. -/
theorem UsedUpTo.last_block (h : UsedUpTo hi lo c.mem) (hhi : hi ≤ nrPages) (order : Nat)
    (hroom : lo + require order ≤ hi)
    (hhigh : lowMem + (hi - require order) * pageSize < c.mem.highMemory) :
    ∃ c', Reach Take c c' ∧ (lowMem + (hi - require order) * pageSize, order) ∈ c'.live := by
  have hpos := require_pos order
  obtain ⟨n, hn⟩ : ∃ n, hi - require order = lo + n := ⟨hi - require order - lo, by omega⟩
  rw [hn] at hhigh ⊢
  obtain ⟨c₁, hreach, hused, hhigh₁⟩ := h.pages hhi n (by omega) hhigh.le
  obtain ⟨c₂, htake, -, hb⟩ := hused.take hhi order (by omega) (by rwa [hhigh₁])
  exact ⟨c₂, hreach.tail ⟨order, htake⟩, hb⟩

theorem usedUpTo_init (hinit : memInit s memStart memEnd = .ok s₀) :
    UsedUpTo (mmi memEnd + 1) (mmi memStart) s₀ := by
  obtain ⟨⟨hlow, hlt, htop⟩, -, hmap⟩ := memInit_ok hinit
  have hend := (mmi_lt (hlow.trans hlt.le) htop).1
  constructor
  · intro j hj hj'
    rw [hmap j (by omega), if_pos ⟨hj, hj'⟩]
  · intro j hj hout
    rw [hmap j hj, if_neg hout]
    decide

theorem inv_reach (hinit : memInit s memStart memEnd = .ok s₀) (h : Reach Take ⟨s₀, []⟩ c) :
    Inv (mmi memStart) (mmi memEnd + 1) c :=
  h.inv (fun _ _ _ hinv hst => inv_take hinv hst) (inv_init hinit)

/-! ## The three limits -/

/-- The first page handed out is the whole frame that `mem_start` lies in. -/
theorem above_iff (hinit : memInit s memStart memEnd = .ok s₀) :
    (∀ c, Reach Take ⟨s₀, []⟩ c → Above memStart c) ↔ memStart % pageSize = 0 := by
  obtain ⟨⟨hlow, hlt, htop⟩, hhigh, -⟩ := memInit_ok hinit
  have hstart := mmi_lt hlow (hlt.trans htop)
  have hend := mmi_lt (hlow.trans hlt.le) htop
  have hle : mmi memStart < mmi memEnd + 1 := by
    simp only [lowMem, pageSize] at hstart hend
    omega
  constructor
  · intro hall
    obtain ⟨c, htake, -, hb⟩ := (usedUpTo_init hinit).take (c := ⟨s₀, []⟩) hend.1 0 hle
      (by rw [hhigh]; exact hstart.2.1.trans_lt hlt)
    have hsize : 0 < require 0 * pageSize := by decide
    have hfirst := hall c (.single ⟨0, htake⟩) _ hb (lowMem + mmi memStart * pageSize)
      ⟨le_rfl, Nat.lt_add_of_pos_right hsize⟩
    have heq : lowMem + mmi memStart * pageSize = memStart := le_antisymm hstart.2.1 hfirst
    rw [← heq]
    simp only [lowMem, pageSize]
    omega
  · intro hal c hreach
    have hinv := inv_reach hinit hreach
    exact above_of_inv hinv hend.1 (frame_of_aligned hlow (hlt.trans htop) hal)

/-- The last block handed out ends with the whole frame that `mem_end` lies in. -/
theorem below_iff (hinit : memInit s memStart memEnd = .ok s₀) :
    (∀ c, Reach Take ⟨s₀, []⟩ c → Below memEnd c) ↔ (memEnd + 1) % pageSize = 0 := by
  obtain ⟨⟨hlow, hlt, htop⟩, hhigh, -⟩ := memInit_ok hinit
  have hstart := mmi_lt hlow (hlt.trans htop)
  have hend := mmi_lt (hlow.trans hlt.le) htop
  have hused := usedUpTo_init hinit
  constructor
  · intro hall
    have hone : require 0 = 1 := rfl
    have htwo : require 1 = 2 := rfl
    simp only [lowMem, pageSize] at hstart hend
    -- one page, or two when the last frame alone starts at HIGH_MEMORY
    obtain ⟨order, hroom, hlow'⟩ : ∃ order, mmi memStart + require order ≤ mmi memEnd + 1 ∧
        lowMem + (mmi memEnd + 1 - require order) * pageSize < memEnd := by
      simp only [lowMem, pageSize]
      by_cases hal : memEnd % 4096 = 0
      · refine ⟨1, ?_, ?_⟩ <;> rw [htwo] <;> omega
      · refine ⟨0, ?_, ?_⟩ <;> rw [hone] <;> omega
    obtain ⟨c, hreach, hb⟩ := hused.last_block (c := ⟨s₀, []⟩) hend.1 order hroom
      (by rwa [hhigh])
    have hpos := require_pos order
    have hlast := hall c hreach _ hb (lowMem + (mmi memEnd + 1) * pageSize - 1) (by
      simp only [bytes, Set.mem_ofPred_eq, lowMem, pageSize]
      omega)
    simp only [lowMem, pageSize] at hlast ⊢
    omega
  · intro hal c hreach
    have hinv := inv_reach hinit hreach
    exact below_of_inv hinv hend.1 (frame_of_aligned_end (hlow.trans hlt.le) htop hal)

/-- When only a last frame that starts at HIGH_MEMORY is left, the assertion fires. -/
theorem untripped_iff (hinit : memInit s memStart memEnd = .ok s₀) :
    (∀ c, Reach Take ⟨s₀, []⟩ c → Untripped c) ↔ memEnd % pageSize ≠ 0 := by
  obtain ⟨⟨hlow, hlt, htop⟩, hhigh, -⟩ := memInit_ok hinit
  have hstart := mmi_lt hlow (hlt.trans htop)
  have hend := mmi_lt (hlow.trans hlt.le) htop
  constructor
  · intro hall hal
    have hlast : lowMem + mmi memEnd * pageSize = memEnd :=
      frame_of_aligned (hlow.trans hlt.le) htop hal
    have hle : mmi memStart ≤ mmi memEnd := by
      simp only [lowMem, pageSize] at hstart hend
      omega
    have hn : mmi memStart + (mmi memEnd - mmi memStart) = mmi memEnd := by omega
    obtain ⟨c, hreach, hused, hhigh'⟩ := (usedUpTo_init hinit).pages (c := ⟨s₀, []⟩) hend.1
      (mmi memEnd - mmi memStart) (by omega) (by rw [hhigh, hn, hlast])
    rw [hn] at hused
    have hfirst := hused.first hend.1 0 le_rfl
    have htrip := (trip_iff c.mem 0).mpr ⟨_, hfirst, by rw [hhigh', hhigh, hlast]⟩
    exact hall c hreach 0 ⟨_, hfirst.1⟩ htrip
  · intro hal c hreach
    have hinv := inv_reach hinit hreach
    exact untripped_of_inv hinv ((reach_highMemory hreach).trans hhigh) (hlow.trans hlt.le) htop hal

/-- Managed range.  Every page of every run stays inside `[mem_start, mem_end]`, with the assertion
silent while frames fit, exactly when the range is made of whole frames. -/
theorem managed_range_iff (hinit : memInit s memStart memEnd = .ok s₀) :
    (∀ c, Reach Take ⟨s₀, []⟩ c →
      (∀ b ∈ c.live, ∀ x ∈ bytes b, memStart ≤ x ∧ x ≤ memEnd) ∧ Untripped c) ↔
      memStart % pageSize = 0 ∧ (memEnd + 1) % pageSize = 0 := by
  constructor
  · intro hall
    exact ⟨(above_iff hinit).mp fun c hc b hb x hx => ((hall c hc).1 b hb x hx).1,
      (below_iff hinit).mp fun c hc b hb x hx => ((hall c hc).1 b hb x hx).2⟩
  · rintro ⟨hstart, hend⟩ c hc
    have hinside : memEnd % pageSize ≠ 0 := by
      simp only [pageSize] at hend ⊢
      omega
    refine ⟨fun b hb x hx => ⟨?_, ?_⟩, (untripped_iff hinit).mpr hinside c hc⟩
    · exact (above_iff hinit).mpr hstart c hc b hb x hx
    · exact (below_iff hinit).mpr hend c hc b hb x hx

/-- kmain's range is made of whole frames. -/
theorem managed_range_iff_kmain : ∃ s₀, memInit ⟨0, fun _ => 0⟩ 0x100000 0xffffff = .ok s₀ ∧
    ∀ c, Reach Take ⟨s₀, []⟩ c →
      (∀ b ∈ c.live, ∀ x ∈ bytes b, 0x100000 ≤ x ∧ x ≤ 0xffffff) ∧ Untripped c := by
  obtain ⟨s₀, hinit⟩ : ∃ s₀, memInit ⟨0, fun _ => 0⟩ 0x100000 0xffffff = .ok s₀ := ⟨_, rfl⟩
  exact ⟨s₀, hinit, (managed_range_iff hinit).mpr ⟨rfl, rfl⟩⟩

/-- A range that starts in the middle of a frame and ends with the first byte of one. -/
theorem unaligned_range_leaks : ¬∀ (memStart memEnd : Nat) (s s₀ : Mem) (c : Client),
    memInit s memStart memEnd = .ok s₀ → Reach Take ⟨s₀, []⟩ c →
      (∀ b ∈ c.live, ∀ x ∈ bytes b, memStart ≤ x ∧ x ≤ memEnd) ∧ Untripped c := by
  intro hclaim
  obtain ⟨s₀, hinit⟩ : ∃ s₀, memInit ⟨0, fun _ => 0⟩ 0x100800 0x102000 = .ok s₀ := ⟨_, rfl⟩
  have hal := (above_iff hinit).mp fun c hc b hb x hx =>
    ((hclaim _ _ _ _ c hinit hc).1 b hb x hx).1
  exact absurd hal (by decide)

end RxdOs.Mm.PageRange
