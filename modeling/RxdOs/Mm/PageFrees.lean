/- RxdOs/Mm/PageFrees
   source: mm/memory.c (free_pages)
   digest: free_pages under arbitrary calls: only its range assertion ever stops one, and
   mem_map stays the true count as long as that catches every bad free. -/

import RxdOs.Mm.PageSafety

set_option autoImplicit false
set_option relaxedAutoImplicit false

namespace RxdOs.Mm.PageFrees

open RxdOs.Base.Assert RxdOs.Lib.Execution RxdOs.Mm.Memory
open RxdOs.Mm.PageSafety (Call memInit_ok mmi_lt)

/-- The allocator beside the true counts, which have no lower end. -/
structure Ledger where
  mem : Mem
  count : Nat → Int

/-- Frame `i` is one of the frames that a call names by address and order. -/
abbrev InRange (addr order i : Nat) : Prop := mmi addr ≤ i ∧ i < mmi addr + require order

/-- `d` more for every frame of the range. -/
def tally (addr order : Nat) (d : Int) (count : Nat → Int) : Nat → Int :=
  fun i => if InRange addr order i then count i + d else count i

/-- One returning call, with any arguments. -/
inductive Step : Ledger → Call → Ledger → Prop
  | alloc {l : Ledger} {order page : Nat} {mem : Mem} :
      allocPages l.mem order = .ok (page, mem) →
      Step l (.alloc order) ⟨mem, tally page order 1 l.count⟩
  | free {l : Ledger} {addr order : Nat} {mem : Mem} :
      freePages l.mem addr order = .ok mem →
      Step l (.free addr order) ⟨mem, tally addr order (-1) l.count⟩

/-- The ledger that opens on a map. -/
def start (s : Mem) : Ledger := ⟨s, fun i => (s.memMap i).toNat⟩

/-- No entry has wrapped, and the frames outside `lo .. hi - 1` are reserved. -/
structure Kept (lo hi : Nat) (l : Ledger) : Prop where
  counted : ∀ i < nrPages, ((l.mem.memMap i).toNat : Int) = l.count i
  reserved : ∀ i < nrPages, ¬(lo ≤ i ∧ i < hi) → l.mem.memMap i = reservedPage

/-- What keeps it so: a managed frame is free or taken once. -/
structure Inv (lo hi : Nat) (l : Ledger) : Prop extends Kept lo hi l where
  managed : ∀ i < nrPages, lo ≤ i ∧ i < hi → l.mem.memMap i = 0 ∨ l.mem.memMap i = 1

/-- Some frame of the range is free or reserved. -/
def Invalid (memMap : Nat → UInt8) (addr order : Nat) : Prop :=
  ∃ i < nrPages, InRange addr order i ∧ (memMap i = 0 ∨ memMap i = reservedPage)

/-- The range of an invalid free reaches the end of the map. -/
def Caught (l : Ledger) : Call → Prop
  | .alloc _ => True
  | .free addr order => Invalid l.mem.memMap addr order → nrPages ≤ mmi addr + require order

variable {lo hi : Nat} {l l' : Ledger} {addr order : Nat}

/-- The unsigned sum of the range assertion does not wrap. -/
theorem range_lt (addr order : Nat) : mmi addr + require order < 2 ^ 32 := by
  have hstart : mmi addr < 2 ^ 20 := by
    rw [mmi]
    exact Nat.div_lt_of_lt_mul (Nat.mod_lt _ (by decide))
  have hreq : require order ≤ 2 ^ 31 := Nat.pow_le_pow_right (by decide) (by omega)
  omega

/-- The one thing free_pages checks. -/
theorem freePages_eq (s : Mem) (addr order : Nat) : freePages s addr order =
    if mmi addr + require order < nrPages then
      .ok { s with memMap := onRun (mmi addr) (require order) (· - 1) s.memMap }
    else .error (.assertFailed "start >= 0 && (start + require) < NR_PAGES") := by
  rw [freePages, Nat.mod_eq_of_lt (range_lt addr order), unmark_spec]
  split_ifs with hlt
  · rw [assert_pos hlt]
    rfl
  · rw [bind_eq_error, assert_eq_error]
    exact .inl ⟨hlt, rfl⟩

/-- A free is stopped exactly when its range reaches the end of the map. -/
theorem freePages_stopped_iff (s : Mem) (addr order : Nat) :
    (∃ text, freePages s addr order = .error (.assertFailed text)) ↔
      nrPages ≤ mmi addr + require order := by
  rw [freePages_eq]
  split_ifs with hlt
  · exact ⟨fun ⟨_, h⟩ => absurd h (by simp), fun hle => absurd hlt (not_lt.mpr hle)⟩
  · exact ⟨fun _ => not_lt.mp hlt, fun _ => ⟨_, rfl⟩⟩

/-! ## One call -/

theorem Inv.alloc (h : Inv lo hi l) {page : Nat} {mem : Mem}
    (hal : allocPages l.mem order = .ok (page, mem)) :
    Inv lo hi ⟨mem, tally page order 1 l.count⟩ := by
  obtain ⟨k, rfl, -, hk, hrun, -, rfl⟩ := allocPages_ok hal
  have hmmi : mmi (lowMem + k * pageSize) = k := mmi_frame (by omega)
  refine ⟨⟨fun i hn => ?_, fun i hn hout => ?_⟩, fun i hn hin => ?_⟩
  · simp only [onRun_apply, tally, InRange, hmmi]
    split_ifs with hrange
    · rw [← h.counted i hn, hrun i hrange.1 hrange.2]
      rfl
    · exact h.counted i hn
  · have hres := h.reserved i hn hout
    simp only [onRun_apply]
    split_ifs with hrange
    · -- a reserved frame is not part of a free run
      rw [hrun i hrange.1 hrange.2] at hres
      exact absurd hres (by decide)
    · exact hres
  · simp only [onRun_apply]
    split_ifs with hrange
    · rw [hrun i hrange.1 hrange.2]
      exact .inr rfl
    · exact h.managed i hn hin

/-- Once the guard holds, a free that returns names only frames taken once. -/
theorem Inv.taken (h : Inv lo hi l) (hcaught : Caught l (.free addr order))
    (hlt : mmi addr + require order < nrPages) {i : Nat} (hin : InRange addr order i) :
    (lo ≤ i ∧ i < hi) ∧ l.mem.memMap i = 1 := by
  have hn : i < nrPages := hin.2.trans hlt
  have hvalid : ¬Invalid l.mem.memMap addr order := fun hbad =>
    absurd hlt (not_lt.mpr (hcaught hbad))
  have hmanaged : lo ≤ i ∧ i < hi := by
    by_contra hout
    exact hvalid ⟨i, hn, hin, .inr (h.reserved i hn hout)⟩
  exact ⟨hmanaged, (h.managed i hn hmanaged).resolve_left fun h0 => hvalid ⟨i, hn, hin, .inl h0⟩⟩

theorem Inv.free (h : Inv lo hi l) (hcaught : Caught l (.free addr order)) {mem : Mem}
    (hfr : freePages l.mem addr order = .ok mem) :
    Inv lo hi ⟨mem, tally addr order (-1) l.count⟩ := by
  rw [freePages_eq] at hfr
  split_ifs at hfr with hlt
  obtain rfl := Except.ok.inj hfr
  have htaken : ∀ i, mmi addr ≤ i ∧ i < mmi addr + require order →
      (lo ≤ i ∧ i < hi) ∧ l.mem.memMap i = 1 := fun i hin => h.taken hcaught hlt hin
  refine ⟨⟨fun i hn => ?_, fun i hn hout => ?_⟩, fun i hn hin => ?_⟩
  · simp only [onRun_apply, tally]
    split_ifs with hrange
    · rw [← h.counted i hn, (htaken i hrange).2]
      rfl
    · exact h.counted i hn
  · simp only [onRun_apply]
    rw [if_neg fun hrange => hout (htaken i hrange).1]
    exact h.reserved i hn hout
  · simp only [onRun_apply]
    split_ifs with hrange
    · rw [(htaken i hrange).2]
      exact .inl rfl
    · exact h.managed i hn hin

theorem Inv.step (h : Inv lo hi l) {a : Call} (hcaught : Caught l a) (hst : Step l a l') :
    Inv lo hi l' := by
  cases hst with
  | alloc hal => exact h.alloc hal
  | free hfr => exact h.free hcaught hfr

/-- A bad free that returns wraps a free frame's entry, or takes a reserved frame's mark. -/
theorem Inv.breaks (h : Inv lo hi l) {a : Call} (hescaped : ¬Caught l a) (hst : Step l a l') :
    ¬Kept lo hi l' := by
  intro h'
  cases hst with
  | alloc hal => exact hescaped trivial
  | free hfr =>
    obtain ⟨⟨i, hn, hin, hentry⟩, -⟩ := Classical.not_imp.mp hescaped
    rw [freePages_eq] at hfr
    split_ifs at hfr
    obtain rfl := Except.ok.inj hfr
    rcases hentry with h0 | hr
    · have hcounted := h'.counted i hn
      simp only [onRun_apply, tally] at hcounted
      rw [if_pos hin, if_pos hin, ← h.counted i hn, h0] at hcounted
      exact absurd hcounted (by decide)
    · have hout : ¬(lo ≤ i ∧ i < hi) := by
        intro hmanaged
        rcases h.managed i hn hmanaged with h0 | h1
        · rw [h0] at hr
          exact absurd hr (by decide)
        · rw [h1] at hr
          exact absurd hr (by decide)
      have hres := h'.reserved i hn hout
      simp only [onRun_apply] at hres
      rw [if_pos hin, hr] at hres
      exact absurd hres (by decide)

/-! ## From mem_init -/

theorem inv_start {s s₀ : Mem} {memStart memEnd : Nat} (h : memInit s memStart memEnd = .ok s₀) :
    Inv (mmi memStart) (mmi memEnd + 1) (start s₀) := by
  obtain ⟨-, -, hmap⟩ := memInit_ok h
  refine ⟨⟨fun _ _ => rfl, fun i hi hout => ?_⟩, fun i hi hin => ?_⟩
  · rw [start, hmap i hi, if_neg hout]
  · rw [start, hmap i hi, if_pos hin]
    exact .inl rfl

/-- Invalid frees.  A call with a free or reserved frame in its range is stopped exactly when the
range reaches the end of the map, and mem_map stays the true count with its reserved frames in every
state of a run exactly when every such call of the run is one of these. -/
theorem invalid_frees_stopped_iff {s s₀ : Mem} {memStart memEnd : Nat}
    (hinit : memInit s memStart memEnd = .ok s₀) {tr : List (Call × Ledger)}
    (hrun : Exec Step (start s₀) tr) :
    (Always (Kept (mmi memStart) (mmi memEnd + 1)) (start s₀) tr ↔ Guarded Caught (start s₀) tr) ∧
    ∀ addr order,
      ((Invalid (last (start s₀) tr).mem.memMap addr order →
          ∃ text, freePages (last (start s₀) tr).mem addr order = .error (.assertFailed text)) ↔
        Caught (last (start s₀) tr) (.free addr order)) := by
  refine ⟨?_, fun addr order => ?_⟩
  · exact hrun.always_iff_guarded (fun _ h => h.toKept) (fun _ _ _ h hC hst => h.step hC hst)
      (fun _ _ _ h hC hst => h.breaks hC hst) (inv_start hinit)
  · exact imp_congr_right fun _ => freePages_stopped_iff _ _ _

/-- A frame of kmain's range is taken and given back. -/
theorem invalid_frees_stopped_iff_once : ∃ s₀ tr,
    memInit ⟨0, fun _ => 0⟩ 0x100000 0xffffff = .ok s₀ ∧ Exec Step (start s₀) tr ∧
    tr.map Prod.fst = [.alloc 0, .free 0x100000 0] ∧ Always (Kept 0 3840) (start s₀) tr := by
  obtain ⟨s₀, hinit⟩ : ∃ s₀, memInit ⟨0, fun _ => 0⟩ 0x100000 0xffffff = .ok s₀ := ⟨_, rfl⟩
  obtain ⟨-, hhigh, hmap⟩ := memInit_ok hinit
  have hrun : FreeRun s₀.memMap 0 (require 0) := fun j _ hj => by
    have hj0 : j = 0 := Nat.lt_one_iff.mp (by simpa [require] using hj)
    rw [hj0, hmap 0 (by decide), if_pos (by decide)]
  have halloc := @allocPages_first s₀ 0 0 (by decide) hrun (by omega) (by rw [hhigh]; decide)
  have hone : onRun 0 (require 0) (· + 1) s₀.memMap 0 = 1 := by
    rw [onRun_apply, if_pos (by decide), hrun 0 le_rfl (by decide)]
    rfl
  have hfree := freePages_eq { s₀ with memMap := onRun 0 (require 0) (· + 1) s₀.memMap } 0x100000 0
  rw [if_pos (by decide)] at hfree
  have hexec : Exec Step (start s₀) _ := .cons (.alloc halloc) (.cons (.free hfree) (.nil _))
  refine ⟨s₀, _, hinit, hexec, rfl, (invalid_frees_stopped_iff hinit hexec).1.mpr ?_⟩
  refine ⟨trivial, ?_, trivial⟩
  rintro ⟨i, -, hin, hbad⟩
  obtain rfl : i = 0 := Nat.lt_one_iff.mp hin.2
  rcases hbad with hbad | hbad <;> exact absurd (hone.symm.trans hbad) (by decide)

/-- Giving back a frame that is free returns, and wraps its entry. -/
theorem free_of_free_frame : ¬∀ (s₀ : Mem) (tr : List (Call × Ledger)),
    memInit ⟨0, fun _ => 0⟩ 0x100000 0xffffff = .ok s₀ → Exec Step (start s₀) tr →
      Always (Kept 0 3840) (start s₀) tr ∧ ∀ addr order,
        Invalid (last (start s₀) tr).mem.memMap addr order →
          ∃ text, freePages (last (start s₀) tr).mem addr order = .error (.assertFailed text) := by
  intro hclaim
  obtain ⟨s₀, hinit⟩ : ∃ s₀, memInit ⟨0, fun _ => 0⟩ 0x100000 0xffffff = .ok s₀ := ⟨_, rfl⟩
  obtain ⟨-, -, hmap⟩ := memInit_ok hinit
  have hzero : s₀.memMap 0 = 0 := by rw [hmap 0 (by decide), if_pos (by decide)]
  have hfree := freePages_eq s₀ 0x100000 0
  rw [if_pos (by decide)] at hfree
  have hexec : Exec Step (start s₀) _ := .cons (.free hfree) (.nil _)
  have hcounted := (hclaim s₀ _ hinit hexec).1.last.counted 0 (by decide)
  have hentry : onRun (mmi 0x100000) (require 0) (· - 1) s₀.memMap 0 = 255 := by
    rw [onRun_apply, if_pos (by decide), hzero]
    rfl
  have hcount : tally 0x100000 0 (-1) (start s₀).count 0 = -1 := by
    rw [tally, if_pos (by decide), start]
    simp only [hzero]
    rfl
  simp only [last_cons, last_nil, hentry, hcount] at hcounted
  exact absurd hcounted (by decide)

end RxdOs.Mm.PageFrees
