/- RxdOs/Fs/BitmapSet
   source: fs/bitmap.h
   digest: A bitmap of any number of blocks as a set of numbers, over any sequence of calls. -/

import RxdOs.Fs.Layout
import RxdOs.Lib.Execution

set_option autoImplicit false
set_option relaxedAutoImplicit false

namespace RxdOs.Fs.BitmapSet

open RxdOs.Base.Assert RxdOs.Lib.Execution RxdOs.Fs.Bitmap

inductive Op
  | alloc
  | free (bit : Nat)
  | test (bit : Nat)

inductive Answer
  | bit (b : Nat)
  | done
  | held (t : Bool)

/-! ## The set -/

open Classical in
/-- An allocator of the numbers below `n`: the lowest one that is out goes in. -/
noncomputable def setCall (n : Nat) (S : Set Nat) : Op → Kernel (Answer × Set Nat)
  | .alloc =>
    if h : ∃ b, b < n ∧ b ∉ S then .ok (.bit (Nat.find h), insert (Nat.find h) S)
    else .error (.panic "_bitmap_alloc: map is full")
  | .free b =>
    if b < n then .ok (.done, S \ {b}) else .error (.panic "_bitmap_free: invalid bit")
  | .test b =>
    if b < n then .ok (.held (decide (b ∈ S)), S) else .error (.panic "_bitmap_test: invalid bit")

/-! ## The blocks -/

section Map

variable (start stop : Nat)

/-- A call on the map in the blocks `[start, stop)`. -/
def call (disk : Disk) : Op → Kernel (Answer × Disk)
  | .alloc => do
    let (b, disk) ← bitmapAlloc disk (stop - start) start 0
    pure (.bit b, disk)
  | .free b => do
    let disk ← bitmapFree disk start stop b
    pure (.done, disk)
  | .test b => do
    let t ← bitmapTest disk start stop b
    pure (.held t, disk)

/-- The numbers whose bits are set. -/
def bits (disk : Disk) : Set Nat := {b | b < (stop - start) * sectorBits ∧ MapBit disk start b}

end Map

/-- The number whose bit a call has written. -/
def written : Op → Answer → Option Nat
  | .alloc, .bit b => some b
  | .free b, _ => some b
  | _, _ => none

variable {start stop : Nat} {disk disk' : Disk}

theorem bitmapAlloc_error {n at₀ bit : Nat} {e : Halt} (h : bitmapAlloc disk n at₀ bit = .error e) :
    e = .panic "_bitmap_alloc: map is full" := by
  induction n generalizing at₀ bit with
  | zero => exact (Except.error.inj h).symm
  | succ n ih =>
    rw [bitmapAlloc] at h
    split at h
    · cases h
    · exact ih h

theorem bits_setBit {b : Nat} (hb : b < (stop - start) * sectorBits) :
    bits start stop (Function.update disk (start + b / sectorBits)
      (setBit (disk (start + b / sectorBits)) (b % sectorBits))) = insert b (bits start stop disk) := by
  ext k
  simp only [bits, Set.mem_ofPred_eq, Set.mem_insert_iff, mapBit_setBit]
  constructor
  · rintro ⟨hk, rfl | hbit⟩
    · exact .inl rfl
    · exact .inr ⟨hk, hbit⟩
  · rintro (rfl | ⟨hk, hbit⟩)
    · exact ⟨hb, .inl rfl⟩
    · exact ⟨hk, .inr hbit⟩

theorem bits_unsetBit {b : Nat} :
    bits start stop (Function.update disk (start + b / sectorBits)
      (unsetBit (disk (start + b / sectorBits)) (b % sectorBits))) = bits start stop disk \ {b} := by
  ext k
  simp only [bits, Set.mem_ofPred_eq, Set.mem_sdiff, Set.mem_singleton_iff, mapBit_unsetBit]
  tauto

/-! ## One call -/

open Classical in
/-- The scan finds the smallest number that is out, and panics when there is none. -/
theorem alloc_map : (call start stop disk .alloc).map (Prod.map id (bits start stop)) =
    setCall ((stop - start) * sectorBits) (bits start stop disk) .alloc := by
  have hout : ∀ b, b < (stop - start) * sectorBits → (b ∉ bits start stop disk ↔
      ¬MapBit disk start b) := fun b hb => not_congr ⟨fun h => h.2, fun h => ⟨hb, h⟩⟩
  cases halloc : bitmapAlloc disk (stop - start) start 0 with
  | error e =>
    have hfull : ¬∃ b, b < (stop - start) * sectorBits ∧ b ∉ bits start stop disk := by
      rintro ⟨b, hb, hfree⟩
      obtain ⟨r, hr⟩ := @bitmapAlloc_of_free disk (stop - start) start 0 b hb ((hout b hb).mp hfree)
      rw [halloc] at hr
      cases hr
    rw [setCall, dif_neg hfull, call, halloc, bitmapAlloc_error halloc]
    rfl
  | ok r =>
    obtain ⟨b, disk'⟩ := r
    obtain ⟨k, hk, hbk, hfree, hones, rfl⟩ := bitmapAlloc_ok rfl halloc
    rw [Nat.zero_add] at hbk
    subst hbk
    have hex : ∃ b, b < (stop - start) * sectorBits ∧ b ∉ bits start stop disk :=
      ⟨b, hk, (hout b hk).mpr hfree⟩
    have hleast : Nat.find hex = b := by
      rw [Nat.find_eq_iff]
      refine ⟨⟨hk, (hout b hk).mpr hfree⟩, fun j hj hj' => ?_⟩
      exact (hout j hj'.1).mp hj'.2 (hones j hj)
    rw [setCall, dif_pos hex, hleast, call, halloc, ← bits_setBit hk]
    rfl

open Classical in
/-- One call does to the set what the allocator of numbers does. -/
theorem call_map (hcount : stop - start < 2 ^ 19) (disk : Disk) (op : Op) :
    (call start stop disk op).map (Prod.map id (bits start stop)) =
      setCall ((stop - start) * sectorBits) (bits start stop disk) op := by
  cases op with
  | alloc => exact alloc_map
  | free b =>
    by_cases hb : b < (stop - start) * sectorBits
    · rw [setCall, if_pos hb, call, bitmapFree_of_lt disk hcount hb, ← bits_unsetBit]
      rfl
    · rw [setCall, if_neg hb, call, bitmapFree, mapBits_eq hcount,
        if_pos (Int.ofNat_le.mpr (not_lt.mp hb))]
      rfl
  | test b =>
    by_cases hb : b < (stop - start) * sectorBits
    · have hsame : decide (MapBit disk start b) = decide (b ∈ bits start stop disk) :=
        decide_eq_decide.mpr ⟨fun h => ⟨hb, h⟩, fun h => h.2⟩
      rw [setCall, if_pos hb, call, bitmapTest_of_lt disk hcount hb, hsame]
      rfl
    · rw [setCall, if_neg hb, call, bitmapTest, mapBits_eq hcount,
        if_pos (Int.ofNat_le.mpr (not_lt.mp hb))]
      rfl

/-- A write of bit `b` changes one byte. -/
theorem update_frame {b k : Nat} {i : Fin 1024} {block : Block}
    (hblock : ∀ i : Fin 1024, i.val ≠ b % sectorBits / 8 → block i = disk (start + b / sectorBits) i)
    (hout : ¬(k = start + b / sectorBits ∧ i.val = b % sectorBits / 8)) :
    Function.update disk (start + b / sectorBits) block k i = disk k i := by
  rw [Function.update_apply]
  split_ifs with hk
  · rw [hk, hblock i fun hi => hout ⟨hk, hi⟩]
  · rfl

/-- A call changes no byte but the one of the bit it writes. -/
theorem call_frame {op : Op} {answer : Answer} (h : call start stop disk op = .ok (answer, disk'))
    {k : Nat} {i : Fin 1024} (hout : ∀ b, written op answer = some b →
      ¬(k = start + b / sectorBits ∧ i.val = b % sectorBits / 8)) : disk' k i = disk k i := by
  cases op with
  | alloc =>
    simp only [call, bind_eq_ok, pure_eq_ok, Except.ok.injEq, Prod.mk.injEq] at h
    obtain ⟨⟨b, d⟩, halloc, rfl, rfl⟩ := h
    obtain ⟨b', -, hb, -, -, rfl⟩ := bitmapAlloc_ok rfl halloc
    rw [Nat.zero_add] at hb
    subst hb
    exact update_frame (fun i hi => if_neg hi) (hout b rfl)
  | free b =>
    simp only [call, bind_eq_ok, pure_eq_ok, Except.ok.injEq, Prod.mk.injEq] at h
    obtain ⟨d, hfree, rfl, rfl⟩ := h
    obtain ⟨-, rfl⟩ := bitmapFree_ok hfree
    exact update_frame (fun i hi => if_neg hi) (hout b rfl)
  | test b =>
    simp only [call, bind_eq_ok, pure_eq_ok, Except.ok.injEq, Prod.mk.injEq] at h
    obtain ⟨t, -, -, rfl⟩ := h
    rfl

/-! ## Any sequence -/

/-- Bitmap allocator.  Any sequence of calls on a map answers, panics and ends as on the set of its
bits, and each call writes at most the byte of its bit. -/
theorem bitmap_allocator_set (hcount : stop - start < 2 ^ 19) (disk : Disk) (ops : List Op) :
    (runAll (call start stop) disk ops).map (Prod.map id (bits start stop)) =
      runAll (setCall ((stop - start) * sectorBits)) (bits start stop disk) ops ∧
    ∀ (d d' : Disk) (op : Op) (answer : Answer), call start stop d op = .ok (answer, d') →
      ∀ (k : Nat) (i : Fin 1024), (∀ b, written op answer = some b →
        ¬(k = start + b / sectorBits ∧ i.val = b % sectorBits / 8)) → d' k i = d k i :=
  ⟨runAll_map (call_map hcount) disk ops, fun _ _ _ _ h _ _ hout => call_frame h hout⟩

/-- Two empty blocks: numbers come out in order, and one that went back comes out again. -/
theorem bitmap_allocator_set_two :
    (runAll (call 2 4) (fun _ => Layout.zeroBlock) [.alloc, .alloc, .free 0, .alloc]).map
        (Prod.map id (bits 2 4)) =
      runAll (setCall 8192) (bits 2 4 fun _ => Layout.zeroBlock) [.alloc, .alloc, .free 0, .alloc] :=
  (bitmap_allocator_set (by decide) _ _).1

/-- With 2^19 blocks the product `(end - start) * SECTOR_BITS` is negative as an int, and no number
passes the check. -/
theorem large_map_rejects : ¬∀ (start stop : Nat) (disk : Disk) (ops : List Op),
    (runAll (call start stop) disk ops).map (Prod.map id (bits start stop)) =
      runAll (setCall ((stop - start) * sectorBits)) (bits start stop disk) ops := by
  intro hclaim
  have htest := hclaim 2 (2 + 2 ^ 19) (fun _ => Layout.zeroBlock) [.test 0]
  have hreject : bitmapTest (fun _ => Layout.zeroBlock) 2 (2 + 2 ^ 19) 0 =
      .error (.panic "_bitmap_test: invalid bit") := if_pos (by decide)
  simp only [runAll, call, hreject, setCall] at htest
  rw [if_pos (by decide)] at htest
  cases htest

end RxdOs.Fs.BitmapSet
