/- RxdOs/Mm/Memory
   source: mm/memory.c
   digest: The frame allocator: mem_map, mem_init, alloc_pages and free_pages. -/

import Mathlib.Tactic
import RxdOs.Base.Assert

set_option autoImplicit false
set_option relaxedAutoImplicit false

namespace RxdOs.Mm.Memory

open RxdOs.Base.Assert

def lowMem : Nat := 0x100000
def totalMem : Nat := 15 * 1024 * 1024
def pageSize : Nat := 4096

/-- `TOTAL_MEM >> 12` -/
def nrPages : Nat := totalMem / pageSize

/-- `((addr) - LOW_MEM) >> 12` on a 32-bit unsigned address: an address below
LOW_MEM wraps to a huge index. -/
def mmi (addr : Nat) : Nat := (addr + 2 ^ 32 - lowMem) % 2 ^ 32 / pageSize

def reservedPage : UInt8 := 100

/-- The static data of memory.c. -/
structure Mem where
  highMemory : Nat
  memMap : Nat → UInt8

/-- `1 << order`.  The shift count of an x86 `sal` is taken modulo 32, so every
order has a result; for `order < 32` it is the C value. -/
def require (order : Nat) : Nat := 2 ^ (order % 32)

/-- `for (i = from, ...; i <= to; ++i) mem_map[i] = v`, with `n` rounds. -/
def setMap (v : UInt8) : Nat → Nat → (Nat → UInt8) → Nat → UInt8
  | 0, _, memMap => memMap
  | n + 1, i, memMap => setMap v n (i + 1) (Function.update memMap i v)

/-- mem_init: everything reserved first, then the managed frames freed.  The map
holds whatever it held before outside `mem_map[NR_PAGES]`. -/
def memInit (s : Mem) (memStart memEnd : Nat) : Kernel Mem := do
  assert (memStart ≥ lowMem ∧ memStart < memEnd ∧ memEnd < lowMem + totalMem)
    "mem_start >= LOW_MEM && mem_start < mem_end && mem_end < (LOW_MEM + TOTAL_MEM)"
  let memMap := setMap reservedPage nrPages 0 s.memMap
  let memMap := setMap 0 (mmi memEnd + 1 - mmi memStart) (mmi memStart) memMap
  pure { highMemory := memEnd, memMap := memMap }

/-- The forward scan of alloc_pages with `n = NR_PAGES - i` rounds to go: the
final `i` and `accum`. -/
def scan (memMap : Nat → UInt8) (req : Nat) : Nat → Nat → Nat → Nat × Nat
  | 0, i, accum => (i, accum)
  | n + 1, i, accum =>
    let accum := if memMap i = 0 then accum + 1 else 0
    if accum = req then (i, accum) else scan memMap req n (i + 1) accum

/-- `for (; accum > 0; --accum, --i) { assert(mem_map[i] == 0); ++(mem_map[i]); }`:
the loop shares `i` with the scan and leaves it one below the run. -/
def mark : Nat → Int → (Nat → UInt8) → Kernel (Int × (Nat → UInt8))
  | 0, i, memMap => pure (i, memMap)
  | accum + 1, i, memMap => do
    assert (memMap i.toNat = 0) "mem_map[i] == 0"
    mark accum (i - 1) (Function.update memMap i.toNat (memMap i.toNat + 1))

def allocPages (s : Mem) (order : Nat) : Kernel (Nat × Mem) := do
  let (i, accum) := scan s.memMap (require order) nrPages 0 0
  if i = nrPages then
    .error (.panic "out of memory")
  else
    let (i, memMap) ← mark accum i s.memMap
    let page := lowMem + (i + 1).toNat * pageSize
    assert (page ≥ lowMem ∧ page < s.highMemory) "page >= LOW_MEM && page < HIGH_MEMORY"
    pure (page, { s with memMap := memMap })

def allocPage (s : Mem) : Kernel (Nat × Mem) := allocPages s 0

/-- `for (; require > 0; --require, ++start) { --mem_map[start]; assert(...); }`.
The entry is an unsigned char: it wraps below 0 and the assertion always holds. -/
def unmark : Nat → Nat → (Nat → UInt8) → Kernel (Nat → UInt8)
  | 0, _, memMap => pure memMap
  | req + 1, start, memMap => do
    let memMap := Function.update memMap start (memMap start - 1)
    assert ((memMap start).toNat ≥ 0) "mem_map[start] >= 0"
    unmark req (start + 1) memMap

/-- `start + require` is an unsigned sum. -/
def freePages (s : Mem) (addr order : Nat) : Kernel Mem := do
  let start := mmi addr
  assert ((start + require order) % 2 ^ 32 < nrPages)
    "start >= 0 && (start + require) < NR_PAGES"
  let memMap ← unmark (require order) start s.memMap
  pure { s with memMap := memMap }

def freePage (s : Mem) (addr : Nat) : Kernel Mem := freePages s addr 0

/-! ## What the loops do -/

theorem require_pos (order : Nat) : 0 < require order := Nat.two_pow_pos _

theorem setMap_apply (v : UInt8) (n i : Nat) (memMap : Nat → UInt8) (j : Nat) :
    setMap v n i memMap j = if i ≤ j ∧ j < i + n then v else memMap j := by
  induction n generalizing i memMap with
  | zero => simp only [setMap]; split <;> [omega; rfl]
  | succ n ih =>
    simp only [setMap, ih, Function.update_apply]
    split_ifs <;> first | rfl | omega

/-- The frames `k .. k + n - 1` are all free. -/
def FreeRun (memMap : Nat → UInt8) (k n : Nat) : Prop :=
  ∀ j, k ≤ j → j < k + n → memMap j = 0

/-- `f` applied to the entries of the frames `k .. k + n - 1`. -/
def onRun (k n : Nat) (f : UInt8 → UInt8) (memMap : Nat → UInt8) : Nat → UInt8 :=
  fun j => if k ≤ j ∧ j < k + n then f (memMap j) else memMap j

theorem onRun_apply (k n : Nat) (f : UInt8 → UInt8) (memMap : Nat → UInt8) (j : Nat) :
    onRun k n f memMap j = if k ≤ j ∧ j < k + n then f (memMap j) else memMap j := rfl

@[simp] theorem onRun_zero (k : Nat) (f : UInt8 → UInt8) (memMap : Nat → UInt8) :
    onRun k 0 f memMap = memMap := by
  funext j
  rw [onRun_apply, if_neg (by omega)]

/-- What the scan knows before round `i`: the last `accum` frames are free, the run
is maximal, and no run of `req` frames has been passed over. -/
structure ScanInv (memMap : Nat → UInt8) (req i accum : Nat) : Prop where
  le : accum ≤ i
  lt : accum < req
  run : FreeRun memMap (i - accum) accum
  edge : accum < i → memMap (i - accum - 1) ≠ 0
  none : ∀ k, k + req ≤ i → ¬FreeRun memMap k req

theorem ScanInv.run_succ {memMap : Nat → UInt8} {req i accum : Nat}
    (h : ScanInv memMap req i accum) (hi : memMap i = 0) :
    FreeRun memMap (i - accum) (accum + 1) := by
  have hle := h.le
  intro j hj hj'
  by_cases hji : j = i
  · rw [hji]; exact hi
  · exact h.run j hj (by omega)

/-- No run of `req` frames starts before the current one. -/
theorem ScanInv.first {memMap : Nat → UInt8} {req i accum : Nat}
    (h : ScanInv memMap req i accum) {k : Nat} (hk : k < i - accum) : ¬FreeRun memMap k req := by
  intro hrun
  have hle := h.le
  by_cases hki : k + req ≤ i
  · exact h.none k hki hrun
  · -- a run ending past `i` would contain the frame below the current run
    exact h.edge (by omega) (hrun (i - accum - 1) (by omega) (by omega))

theorem ScanInv.free {memMap : Nat → UInt8} {req i accum : Nat}
    (h : ScanInv memMap req i accum) (hi : memMap i = 0) (hne : accum + 1 ≠ req) :
    ScanInv memMap req (i + 1) (accum + 1) := by
  have hle := h.le
  have hlt := h.lt
  refine ⟨by omega, by omega, ?_, ?_, ?_⟩
  · rw [show i + 1 - (accum + 1) = i - accum by omega]
    exact h.run_succ hi
  · intro hedge
    rw [show i + 1 - (accum + 1) - 1 = i - accum - 1 by omega]
    exact h.edge (by omega)
  · intro k hk
    exact h.first (by omega)

theorem ScanInv.used {memMap : Nat → UInt8} {req i accum : Nat}
    (h : ScanInv memMap req i accum) (hi : memMap i ≠ 0) : ScanInv memMap req (i + 1) 0 := by
  have hlt := h.lt
  refine ⟨by omega, by omega, fun j hj hj' => by omega, fun _ => by simpa using hi, ?_⟩
  intro k hk hrun
  by_cases hki : k + req ≤ i
  · exact h.none k hki hrun
  · exact hi (hrun i (by omega) (by omega))

/-- The scan stops at the first run of `req` free frames, or at the end when there is none. -/
theorem scan_spec (memMap : Nat → UInt8) (req n i accum : Nat) (h : ScanInv memMap req i accum) :
    (∃ k, scan memMap req n i accum = (k + req - 1, req) ∧ k + req ≤ i + n ∧
        FreeRun memMap k req ∧ ∀ k' < k, ¬FreeRun memMap k' req) ∨
      (∃ accum', scan memMap req n i accum = (i + n, accum')) ∧
        ∀ k, k + req ≤ i + n → ¬FreeRun memMap k req := by
  induction n generalizing i accum with
  | zero => exact .inr ⟨⟨accum, rfl⟩, h.none⟩
  | succ n ih =>
    have hlt := h.lt
    have hle := h.le
    by_cases hi : memMap i = 0
    · by_cases hreq : accum + 1 = req
      · left
        refine ⟨i - accum, ?_, by omega, ?_, fun k' hk' => h.first hk'⟩
        · simp only [scan, hi, if_true, hreq]
          rw [show i - accum + req - 1 = i by omega]
        · rw [← hreq]
          exact h.run_succ hi
      · have hnext := ih (i + 1) (accum + 1) (h.free hi hreq)
        simp only [scan, hi, if_true, hreq, if_false]
        rwa [show i + 1 + n = i + (n + 1) by omega] at hnext
    · have hnext := ih (i + 1) 0 (h.used hi)
      have hreq : ¬0 = req := by omega
      simp only [scan, hi, if_false, hreq]
      rwa [show i + 1 + n = i + (n + 1) by omega] at hnext

theorem mark_spec (accum k : Nat) (memMap : Nat → UInt8) (hfree : FreeRun memMap k accum) :
    mark accum ((k : Int) + accum - 1) memMap =
      .ok ((k : Int) - 1, onRun k accum (· + 1) memMap) := by
  induction accum generalizing memMap with
  | zero => simp [mark]
  | succ accum ih =>
    have hidx : ((k : Int) + ((accum + 1 : Nat) : Int) - 1).toNat = k + accum := by omega
    have hzero : memMap (k + accum) = 0 := hfree _ (by omega) (by omega)
    have hi : (k : Int) + ((accum + 1 : Nat) : Int) - 1 - 1 = (k : Int) + accum - 1 := by
      push_cast
      ring
    have hrest : FreeRun (Function.update memMap (k + accum) (memMap (k + accum) + 1)) k accum := by
      intro j hj hj'
      rw [Function.update_apply, if_neg (by omega)]
      exact hfree j hj (by omega)
    simp only [mark, hidx, assert_pos hzero, ok_bind, hi, ih _ hrest]
    congr 2
    funext j
    simp only [onRun_apply, Function.update_apply]
    split_ifs <;> first | rfl | omega | simp_all

theorem scanInv_init (memMap : Nat → UInt8) (order : Nat) : ScanInv memMap (require order) 0 0 :=
  ⟨le_rfl, require_pos order, fun _ _ _ => by omega, fun h => absurd h (lt_irrefl 0),
    fun k hk => by have := require_pos order; omega⟩

/-- What alloc_pages does once the scan has stopped at the run starting at `k`. -/
theorem allocPages_of_scan {s : Mem} {order k : Nat}
    (hscan : scan s.memMap (require order) nrPages 0 0 = (k + require order - 1, require order))
    (hk : k + require order ≤ nrPages) (hrun : FreeRun s.memMap k (require order)) :
    allocPages s order = (do
      assert (lowMem + k * pageSize ≥ lowMem ∧ lowMem + k * pageSize < s.highMemory)
        "page >= LOW_MEM && page < HIGH_MEMORY"
      pure (lowMem + k * pageSize, { s with memMap := onRun k (require order) (· + 1) s.memMap })) := by
  have hreq := require_pos order
  have hend : ¬k + require order - 1 = nrPages := by omega
  have hcast : ((k + require order - 1 : Nat) : Int) = (k : Int) + (require order : Nat) - 1 := by
    omega
  have hback : ((k : Int) - 1 + 1).toNat = k := by omega
  simp only [allocPages, hscan, hend, if_false, hcast, mark_spec _ _ _ hrun, ok_bind, hback]

/-- alloc_pages returns the lowest run of free frames and counts exactly its entries up. -/
theorem allocPages_ok {s s' : Mem} {order page : Nat} (h : allocPages s order = .ok (page, s')) :
    ∃ k, page = lowMem + k * pageSize ∧ page < s.highMemory ∧ k + require order ≤ nrPages ∧
      FreeRun s.memMap k (require order) ∧
      (∀ k' < k, ¬FreeRun s.memMap k' (require order)) ∧
      s' = { s with memMap := onRun k (require order) (· + 1) s.memMap } := by
  rcases scan_spec s.memMap (require order) nrPages 0 0 (scanInv_init _ _) with
    ⟨k, hscan, hk, hrun, hfirst⟩ | ⟨⟨accum', hscan⟩, _⟩
  · rw [allocPages_of_scan hscan (by omega) hrun] at h
    simp only [bind_eq_ok, assert_eq_ok, pure_eq_ok, Except.ok.injEq, Prod.mk.injEq] at h
    obtain ⟨_, hassert, rfl, rfl⟩ := h
    exact ⟨k, rfl, hassert.2, by omega, hrun, hfirst, rfl⟩
  · simp [allocPages, hscan] at h

/-- The ways alloc_pages stops the machine. -/
theorem allocPages_error {s : Mem} {order : Nat} {e : Halt} (h : allocPages s order = .error e) :
    e = .panic "out of memory" ∨ e = .assertFailed "page >= LOW_MEM && page < HIGH_MEMORY" := by
  rcases scan_spec s.memMap (require order) nrPages 0 0 (scanInv_init _ _) with
    ⟨k, hscan, hk, hrun, -⟩ | ⟨⟨accum', hscan⟩, _⟩
  · rw [allocPages_of_scan hscan (by omega) hrun] at h
    simp only [bind_eq_error, assert_eq_error, pure_eq_ok, reduceCtorEq, and_false, exists_false,
      or_false] at h
    exact .inr h.2
  · simp only [allocPages, hscan, zero_add, if_true, Except.error.injEq] at h
    exact .inl h.symm

/-- A first free run below HIGH_MEMORY is what alloc_pages returns. -/
theorem allocPages_first {s : Mem} {order k : Nat} (hk : k + require order ≤ nrPages)
    (hrun : FreeRun s.memMap k (require order))
    (hfirst : ∀ k' < k, ¬FreeRun s.memMap k' (require order))
    (hhigh : lowMem + k * pageSize < s.highMemory) :
    allocPages s order = .ok (lowMem + k * pageSize,
      { s with memMap := onRun k (require order) (· + 1) s.memMap }) := by
  rcases scan_spec s.memMap (require order) nrPages 0 0 (scanInv_init _ _) with
    ⟨k', hscan, hk', hrun', hfirst'⟩ | ⟨_, hnone⟩
  · have hkk : k' = k := by
      rcases Nat.lt_trichotomy k' k with hlt | heq | hgt
      · exact absurd hrun' (hfirst k' hlt)
      · exact heq
      · exact absurd hrun (hfirst' k hgt)
    subst hkk
    rw [allocPages_of_scan hscan (by omega) hrun, assert_pos ⟨by omega, hhigh⟩]
    rfl
  · exact absurd hrun (hnone k (by omega))

/-- alloc_page hands out the lowest free frame, if it lies below HIGH_MEMORY. -/
theorem allocPage_iff {s : Mem} {page : Nat} : (∃ s', allocPage s = .ok (page, s')) ↔
    ∃ k < nrPages, page = lowMem + k * pageSize ∧ s.memMap k = 0 ∧ (∀ j < k, s.memMap j ≠ 0) ∧
      page < s.highMemory := by
  have hone : require 0 = 1 := rfl
  constructor
  · rintro ⟨s', halloc⟩
    obtain ⟨k, hpage, hhigh, hk, hrun, hfirst, -⟩ := allocPages_ok halloc
    rw [hone] at hk hrun hfirst
    refine ⟨k, hk, hpage, hrun k le_rfl (Nat.lt_succ_self k), fun j hj hzero => ?_, hhigh⟩
    refine hfirst j hj fun i hi hi' => ?_
    rwa [show i = j by omega]
  · rintro ⟨k, hk, rfl, hfree, hfirst, hhigh⟩
    refine ⟨_, allocPages_first (k := k) ?_ ?_ ?_ hhigh⟩
    · rw [hone]
      exact hk
    · intro i hi hi'
      rwa [show i = k by omega]
    · intro j hj hrun
      exact hfirst j hj (hrun j le_rfl (by rw [hone]; omega))

/-- The lowest free frame, below HIGH_MEMORY. -/
def Spare (mem : Mem) : Prop := ∃ k < nrPages, mem.memMap k = 0 ∧ (∀ j < k, mem.memMap j ≠ 0) ∧
  lowMem + k * pageSize < mem.highMemory

theorem allocPage_spare {mem : Mem} : (∃ r, allocPage mem = .ok r) ↔ Spare mem := by
  constructor
  · rintro ⟨⟨page, mem'⟩, halloc⟩
    obtain ⟨k, hk, rfl, hfree, hfirst, hhigh⟩ := allocPage_iff.mp ⟨mem', halloc⟩
    exact ⟨k, hk, hfree, hfirst, hhigh⟩
  · rintro ⟨k, hk, hfree, hfirst, hhigh⟩
    obtain ⟨mem', halloc⟩ := allocPage_iff.mpr ⟨k, hk, rfl, hfree, hfirst, hhigh⟩
    exact ⟨_, halloc⟩

theorem unmark_spec (req start : Nat) (memMap : Nat → UInt8) :
    unmark req start memMap = .ok (onRun start req (· - 1) memMap) := by
  induction req generalizing start memMap with
  | zero => simp [unmark]
  | succ req ih =>
    simp only [unmark, ge_iff_le, Nat.zero_le, assert_pos, ok_bind, ih]
    congr 1
    funext j
    simp only [onRun_apply, Function.update_apply]
    split_ifs <;> first | rfl | omega | simp_all

theorem freePages_ok {s s' : Mem} {addr order : Nat} (h : freePages s addr order = .ok s') :
    (mmi addr + require order) % 2 ^ 32 < nrPages ∧
      s' = { s with memMap := onRun (mmi addr) (require order) (· - 1) s.memMap } := by
  simp only [freePages, unmark_spec, bind_eq_ok, assert_eq_ok, pure_eq_ok, Except.ok.injEq,
    exists_eq_left'] at h
  obtain ⟨_, hlt, rfl⟩ := h
  exact ⟨hlt, rfl⟩

theorem mmi_frame {k : Nat} (hk : k ≤ nrPages) : mmi (lowMem + k * pageSize) = k := by
  have hbound : k ≤ 3840 := hk
  unfold mmi lowMem pageSize
  omega

/-- free_page takes every managed frame but the last. -/
theorem freePage_iff {s : Mem} {k : Nat} (hk : k < nrPages) :
    (∃ s', freePage s (lowMem + k * pageSize) = .ok s') ↔ k + 1 < nrPages := by
  have hmod : (k + 1) % 2 ^ 32 = k + 1 := by
    have hbound : k < 3840 := hk
    omega
  have hstart : (mmi (lowMem + k * pageSize) + require 0) % 2 ^ 32 = k + 1 := by
    rw [mmi_frame hk.le]
    exact hmod
  constructor
  · rintro ⟨s', hfree⟩
    obtain ⟨hlt, -⟩ := freePages_ok hfree
    rwa [hstart] at hlt
  · intro hlt
    have hrange : (mmi (lowMem + k * pageSize) + require 0) % 2 ^ 32 < nrPages := hstart ▸ hlt
    rw [freePage, freePages, assert_pos hrange, ok_bind, unmark_spec]
    exact ⟨_, rfl⟩

end RxdOs.Mm.Memory
