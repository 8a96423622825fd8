/- RxdOs/Mm/PageFit
   source: mm/memory.c (alloc_pages, free_pages)
   digest: alloc_pages takes the lowest run of free frames whenever there is one, and
   free_pages takes it back unless it ends with the last frame. -/

import RxdOs.Mm.PageSafety

set_option autoImplicit false
set_option relaxedAutoImplicit false

namespace RxdOs.Mm.PageFit

open RxdOs.Base.Assert RxdOs.Lib.Execution RxdOs.Mm.Memory RxdOs.Mm.PageSafety

/-- The `n` frames from `k` on exist and are all free. -/
def Fits (memMap : Nat → UInt8) (n k : Nat) : Prop := k + n ≤ nrPages ∧ FreeRun memMap k n

/-- `k` is the lowest frame that `n` free frames start at. -/
def First (memMap : Nat → UInt8) (n k : Nat) : Prop :=
  Fits memMap n k ∧ ∀ k' < k, ¬Fits memMap n k'

/-- alloc_pages before its last assertion: the first frame it has taken. -/
def takePages (s : Mem) (order : Nat) : Kernel (Nat × Mem) := do
  let (i, accum) := scan s.memMap (require order) nrPages 0 0
  if i = nrPages then
    .error (.panic "out of memory")
  else
    let (i, memMap) ← mark accum i s.memMap
    pure ((i + 1).toNat, { s with memMap := memMap })

/-- The last assertion, and the address. -/
def pageAddress (k : Nat) (s : Mem) : Kernel (Nat × Mem) := do
  let page := lowMem + k * pageSize
  assert (page ≥ lowMem ∧ page < s.highMemory) "page >= LOW_MEM && page < HIGH_MEMORY"
  pure (page, s)

theorem allocPages_eq (s : Mem) (order : Nat) :
    allocPages s order = takePages s order >>= fun r => pageAddress r.1 r.2 := by
  simp only [allocPages, takePages]
  split
  · rfl
  · rw [bind_assoc]
    rfl

variable {s s' : Mem} {order k n : Nat} {memMap : Nat → UInt8}

/-! ## First fit -/

theorem First.le (h : First memMap n k) {k' : Nat} (hfits : Fits memMap n k') : k ≤ k' :=
  not_lt.mp fun hlt => h.2 k' hlt hfits

theorem require_of_lt (horder : order < 32) : require order = 2 ^ order := by
  rw [require, Nat.mod_eq_of_lt horder]

/-- The entries of a free run, counted up once. -/
theorem onRun_free (h : FreeRun memMap k n) :
    onRun k n (· + 1) memMap = fun j => if k ≤ j ∧ j < k + n then 1 else memMap j := by
  funext j
  rw [onRun_apply]
  refine if_ctx_congr Iff.rfl (fun hj => ?_) fun _ => rfl
  rw [h j hj.1 hj.2]
  rfl

/-- The two ways the scan ends. -/
theorem takePages_cases (s : Mem) (order : Nat) :
    (∃ k, First s.memMap (require order) k ∧
      takePages s order = .ok (k, { s with memMap := onRun k (require order) (· + 1) s.memMap })) ∨
    (∀ k, ¬Fits s.memMap (require order) k) ∧
      takePages s order = .error (.panic "out of memory") := by
  rcases scan_spec s.memMap (require order) nrPages 0 0 (scanInv_init _ _) with
    ⟨k, hscan, hk, hrun, hfirst⟩ | ⟨⟨accum, hscan⟩, hnone⟩
  · left
    have hreq := require_pos order
    have hend : ¬k + require order - 1 = nrPages := by omega
    have hcast : ((k + require order - 1 : Nat) : Int) = (k : Int) + (require order : Nat) - 1 := by
      omega
    have hback : ((k : Int) - 1 + 1).toNat = k := by omega
    refine ⟨k, ⟨⟨by omega, hrun⟩, fun k' hk' hfits => hfirst k' hk' hfits.2⟩, ?_⟩
    simp only [takePages, hscan, hend, if_false, hcast, mark_spec _ _ _ hrun, ok_bind, hback]
    rfl
  · right
    refine ⟨fun k hfits => hnone k (by simpa using hfits.1) hfits.2, ?_⟩
    simp only [takePages, hscan, zero_add, if_true]

/-- What the whole call does with the run it has taken. -/
theorem pageAddress_eq (k : Nat) (s : Mem) : pageAddress k s =
    if lowMem + k * pageSize < s.highMemory then .ok (lowMem + k * pageSize, s)
    else .error (.assertFailed "page >= LOW_MEM && page < HIGH_MEMORY") := by
  have hlow : lowMem + k * pageSize ≥ lowMem := Nat.le_add_right _ _
  rw [pageAddress]
  split_ifs with hhigh
  · rw [assert_pos ⟨hlow, hhigh⟩]
    rfl
  · rw [bind_eq_error, assert_eq_error]
    exact .inl ⟨fun h => hhigh h.2, rfl⟩

/-- alloc_pages is out of memory exactly when no run is free; otherwise it takes the lowest run,
changes its entries and no others, and its inner assertion holds. -/
theorem alloc_pages_first_fit (s : Mem) {order : Nat} (horder : order < 32) :
    (allocPages s order = .error (.panic "out of memory") ↔
      ¬∃ k, Fits s.memMap (2 ^ order) k) ∧
    ((∃ k, Fits s.memMap (2 ^ order) k) → ∃ k s', First s.memMap (2 ^ order) k ∧
      s' = { s with memMap := fun j => if k ≤ j ∧ j < k + 2 ^ order then 1 else s.memMap j } ∧
      takePages s order = .ok (k, s') ∧
      allocPages s order =
        if lowMem + k * pageSize < s.highMemory then .ok (lowMem + k * pageSize, s')
        else .error (.assertFailed "page >= LOW_MEM && page < HIGH_MEMORY")) ∧
    allocPages s order ≠ .error (.assertFailed "mem_map[i] == 0") := by
  have hreq := require_of_lt horder
  rw [allocPages_eq]
  rcases takePages_cases s order with ⟨k, hfirst, htake⟩ | ⟨hnone, htake⟩
  · rw [hreq] at hfirst
    have hall : (takePages s order >>= fun r => pageAddress r.1 r.2) =
        if lowMem + k * pageSize < s.highMemory then
          .ok (lowMem + k * pageSize, { s with memMap := onRun k (require order) (· + 1) s.memMap })
        else .error (.assertFailed "page >= LOW_MEM && page < HIGH_MEMORY") := by
      rw [htake, ok_bind, pageAddress_eq]
    refine ⟨⟨fun hpanic => ?_, fun hno => absurd ⟨k, hfirst.1⟩ hno⟩, fun _ => ?_, fun hinner => ?_⟩
    · rw [hall] at hpanic
      split_ifs at hpanic
      cases hpanic
    · rw [hreq, onRun_free hfirst.1.2] at htake hall
      exact ⟨k, _, hfirst, rfl, htake, hall⟩
    · rw [hall] at hinner
      split_ifs at hinner
      have htext := Halt.assertFailed.inj (Except.error.inj hinner)
      exact absurd htext (by decide)
  · rw [hreq] at hnone
    rw [htake, error_bind]
    refine ⟨⟨fun _ ⟨k, hk⟩ => hnone k hk, fun _ => rfl⟩, fun ⟨k, hk⟩ => absurd hk (hnone k), ?_⟩
    exact fun hinner => by cases hinner

/-- On an empty map eight frames come from the bottom. -/
theorem alloc_pages_first_fit_eight : ∃ s', allocPages ⟨0xffffff, fun _ => 0⟩ 3 =
    .ok (0x100000, s') ∧ s'.memMap 7 = 1 ∧ s'.memMap 8 = 0 := by
  have hfits : Fits (fun _ => 0) (2 ^ 3) 0 := ⟨by decide, fun _ _ _ => rfl⟩
  obtain ⟨-, hfit, -⟩ := alloc_pages_first_fit ⟨0xffffff, fun _ => 0⟩ (show 3 < 32 by decide)
  obtain ⟨k, s', hfirst, rfl, -, halloc⟩ := hfit ⟨0, hfits⟩
  obtain rfl : k = 0 := Nat.le_zero.mp (hfirst.le hfits)
  exact ⟨_, halloc.trans (if_pos (by decide)), by decide, by decide⟩

/-! ## Taking a block back -/

theorem onRun_inverse (k n : Nat) (memMap : Nat → UInt8) :
    onRun k n (· - 1) (onRun k n (· + 1) memMap) = memMap := by
  funext j
  simp only [onRun_apply]
  split_ifs
  · exact UInt8.add_sub_cancel (memMap j) 1
  · rfl

/-- free_pages takes exactly the blocks that end below the last frame. -/
theorem freePages_iff (hk : k + require order ≤ nrPages) :
    (∃ s', freePages s (lowMem + k * pageSize) order = .ok s') ↔ k + require order < nrPages := by
  have hbound : nrPages = 3840 := rfl
  have hmod : (k + require order) % 2 ^ 32 = k + require order := Nat.mod_eq_of_lt (by omega)
  have hmmi : mmi (lowMem + k * pageSize) = k := mmi_frame (by omega)
  constructor
  · rintro ⟨s', hfree⟩
    have hlt := (freePages_ok hfree).1
    rwa [hmmi, hmod] at hlt
  · intro hlt
    rw [freePages, hmmi, hmod, assert_pos hlt, ok_bind, unmark_spec, ok_bind]
    exact ⟨_, rfl⟩

/-- A block goes back, and leaves mem_map as it was, exactly when some run of its size ends below
the last frame. -/
theorem alloc_free_round_trip_iff {s s' : Mem} {order page : Nat}
    (halloc : allocPages s order = .ok (page, s')) :
    (∃ s'', freePages s' page order = .ok s'' ∧ s''.memMap = s.memMap) ↔
      ∃ k, k + require order < nrPages ∧ FreeRun s.memMap k (require order) := by
  obtain ⟨k, rfl, -, hk, hrun, hfirst, rfl⟩ := allocPages_ok halloc
  have hfree := @freePages_iff { s with memMap := onRun k (require order) (· + 1) s.memMap } order
    k hk
  constructor
  · rintro ⟨s'', hback, -⟩
    exact ⟨k, hfree.mp ⟨s'', hback⟩, hrun⟩
  · rintro ⟨k', hk', hrun'⟩
    have hle : k ≤ k' := not_lt.mp fun hlt => hfirst k' hlt hrun'
    obtain ⟨s'', hback⟩ := hfree.mpr (by omega)
    obtain ⟨-, rfl⟩ := freePages_ok hback
    refine ⟨_, hback, ?_⟩
    have hmmi : mmi (lowMem + k * pageSize) = k := mmi_frame (by omega)
    simp only [hmmi]
    exact onRun_inverse ..

/-- On an empty map eight frames go back. -/
theorem alloc_free_round_trip_eight : ∃ s' s'', allocPages ⟨0xffffff, fun _ => 0⟩ 3 =
    .ok (lowMem + 0 * pageSize, s') ∧ freePages s' (lowMem + 0 * pageSize) 3 = .ok s'' ∧
    s''.memMap = fun _ => 0 := by
  have halloc := @allocPages_first ⟨0xffffff, fun _ => 0⟩ 3 0 (by decide) (fun _ _ _ => rfl)
    (fun _ hk => absurd hk (Nat.not_lt_zero _)) (by decide)
  obtain ⟨s'', hback, hmap⟩ := (alloc_free_round_trip_iff halloc).mpr
    ⟨0, by decide, fun _ _ _ => rfl⟩
  exact ⟨_, s'', halloc, hback, hmap⟩

/-! ## A nearly full memory -/

/-- The frames from `k` on are free, the ones before are not. -/
def Filled (s : Mem) (k : Nat) : Prop := ∀ j < nrPages, s.memMap j = 0 ↔ k ≤ j

theorem filled_memInit {s₀ : Mem} (h : memInit s 0x100000 0xffffff = .ok s₀) : Filled s₀ 0 := by
  obtain ⟨-, -, hmap⟩ := memInit_ok h
  intro j hj
  have hin : mmi 0x100000 ≤ j ∧ j < mmi 0xffffff + 1 := ⟨Nat.zero_le _, hj⟩
  rw [hmap j hj, if_pos hin]
  simp

/-- The next block goes right above the frames in use. -/
theorem Filled.alloc (h : Filled s k) (hk : k + require order ≤ nrPages)
    (hhigh : lowMem + k * pageSize < s.highMemory) : ∃ s',
      allocPages s order = .ok (lowMem + k * pageSize, s') ∧ Filled s' (k + require order) ∧
        s'.highMemory = s.highMemory := by
  have hrun : FreeRun s.memMap k (require order) := fun j hj hj' => (h j (by omega)).mpr hj
  have hfirst : ∀ k' < k, ¬FreeRun s.memMap k' (require order) := fun k' hk' hrun' => by
    have hpos := require_pos order
    have hle := (h k' (by omega)).mp (hrun' k' le_rfl (by omega))
    omega
  refine ⟨_, allocPages_first hk hrun hfirst hhigh, fun j hj => ?_, rfl⟩
  have hentry := congrFun (onRun_free hrun) j
  simp only at hentry ⊢
  rw [hentry]
  by_cases hin : k ≤ j ∧ j < k + require order
  · rw [if_pos hin]
    exact ⟨fun hone => absurd hone (by decide), fun hle => by omega⟩
  · rw [if_neg hin, h j hj]
    omega

/-- Blocks of orders 11, 10 and 9 leave 256 frames free, up to the top of memory. -/
theorem nearly_full : ∃ s₀ c, memInit ⟨0, fun _ => 0⟩ 0x100000 0xffffff = .ok s₀ ∧
    Reach Step ⟨s₀, []⟩ c ∧ Filled c.mem 3584 ∧ c.mem.highMemory = 0xffffff := by
  obtain ⟨s₀, hinit⟩ : ∃ s₀, memInit ⟨0, fun _ => 0⟩ 0x100000 0xffffff = .ok s₀ := ⟨_, rfl⟩
  obtain ⟨-, hhigh, -⟩ := memInit_ok hinit
  obtain ⟨s₁, h₁, hf₁, hh₁⟩ := @Filled.alloc s₀ 11 0 (filled_memInit hinit) (by decide)
    (by rw [hhigh]; decide)
  obtain ⟨s₂, h₂, hf₂, hh₂⟩ := @Filled.alloc s₁ 10 _ hf₁ (by decide) (by rw [hh₁, hhigh]; decide)
  obtain ⟨s₃, h₃, hf₃, hh₃⟩ := @Filled.alloc s₂ 9 _ hf₂ (by decide)
    (by rw [hh₂, hh₁, hhigh]; decide)
  have hreach : Reach Step ⟨s₀, []⟩ ⟨s₃, [(_, 9), (_, 10), (_, 11)]⟩ :=
    .tail (.tail (.single ⟨.alloc 11, .alloc h₁⟩) ⟨.alloc 10, .alloc h₂⟩) ⟨.alloc 9, .alloc h₃⟩
  exact ⟨s₀, _, hinit, hreach, hf₃, by rw [hh₃, hh₂, hh₁, hhigh]⟩

/-- Then the last order-8 block cannot be given back. -/
theorem top_block_stuck : ¬∀ (s₀ : Mem) (c : Client) (order page : Nat) (s' : Mem),
    memInit ⟨0, fun _ => 0⟩ 0x100000 0xffffff = .ok s₀ → Reach Step ⟨s₀, []⟩ c →
      allocPages c.mem order = .ok (page, s') →
      ∃ s'', freePages s' page order = .ok s'' ∧ s''.memMap = c.mem.memMap := by
  intro hclaim
  obtain ⟨s₀, c, hinit, hreach, hfilled, hhigh⟩ := nearly_full
  obtain ⟨s', halloc, -, -⟩ := @Filled.alloc c.mem 8 3584 hfilled (by decide)
    (by rw [hhigh]; decide)
  obtain ⟨s'', hback, -⟩ := hclaim s₀ c 8 _ s' hinit hreach halloc
  have hlt := (@freePages_iff s' 8 3584 (by decide)).mp ⟨s'', hback⟩
  exact absurd hlt (by decide)

end RxdOs.Mm.PageFit
