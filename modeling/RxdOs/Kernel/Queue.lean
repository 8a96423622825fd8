/- RxdOs/Kernel/Queue
   source: include/io.h
   digest: The terminal's ring queues: QUEUE_INIT, QUEUE_ENQ and QUEUE_DEQ, and what a queue holds. -/

import RxdOs.Base.Assert
import RxdOs.Lib.RingBuffer

set_option autoImplicit false
set_option relaxedAutoImplicit false

namespace RxdOs.Kernel.Queue

open RxdOs.Base.Assert RxdOs.Lib.RingBuffer

def queueBufSz : Nat := 16

/-- `struct tty_queue`; both pointers are kept as their distance from `buffer`. -/
structure TtyQueue where
  head : Nat
  tail : Nat
  count : Nat
  buffer : Nat → BitVec 32

def TtyQueue.queueFull (q : TtyQueue) : Prop := q.count = queueBufSz

def TtyQueue.queueEmpty (q : TtyQueue) : Prop := q.count = 0

instance (q : TtyQueue) : Decidable q.queueFull := inferInstanceAs (Decidable (_ = _))

instance (q : TtyQueue) : Decidable q.queueEmpty := inferInstanceAs (Decidable (_ = _))

def TtyQueue.queueInit (q : TtyQueue) : TtyQueue := { q with head := 0, tail := 0, count := 0 }

/-- The tail comes back to the front before the store. -/
def TtyQueue.queueEnq (q : TtyQueue) (v : BitVec 32) : Kernel TtyQueue := do
  assert (q.count < queueBufSz) "(q).count < QUEUE_BUF_SZ"
  let tail := if q.tail ≥ queueBufSz then q.tail - queueBufSz else q.tail
  access (tail < queueBufSz) "*((q).tail++)"
  pure { q with
    buffer := Function.update q.buffer tail v, tail := tail + 1, count := q.count + 1 }

/-- The head comes back to the front after the load. -/
def TtyQueue.queueDeq (q : TtyQueue) : Kernel (BitVec 32 × TtyQueue) := do
  assert (q.count > 0) "(q).count > 0"
  access (q.head < queueBufSz) "*((q).head++)"
  let head := q.head + 1
  pure (q.buffer q.head,
    { q with
      head := if head ≥ queueBufSz then head - queueBufSz else head, count := q.count - 1 })

/-! ## What a queue holds -/

/-- The values stored, oldest first. -/
def TtyQueue.contents (q : TtyQueue) : List (BitVec 32) :=
  window q.buffer queueBufSz q.head q.count

/-- The tail may rest one past the end, which is the same cell as the front. -/
structure TtyQueue.WellFormed (q : TtyQueue) : Prop where
  head : q.head < queueBufSz
  tail : q.tail ≤ queueBufSz
  count : q.count ≤ queueBufSz
  meet : q.tail % queueBufSz = (q.head + q.count) % queueBufSz

variable {q q' : TtyQueue}

@[simp] theorem length_contents : q.contents.length = q.count := length_window ..

theorem queueEmpty_iff : q.queueEmpty ↔ q.contents = [] := by
  rw [← List.length_eq_zero_iff, length_contents]
  rfl

theorem queueInit_wellFormed (q : TtyQueue) : q.queueInit.WellFormed :=
  ⟨Nat.zero_lt_succ _, Nat.zero_le _, Nat.zero_le _, rfl⟩

/-- QUEUE_ENQ on a queue with room appends. -/
theorem TtyQueue.WellFormed.queueEnq (h : q.WellFormed) (hroom : q.count < queueBufSz)
    (v : BitVec 32) : ∃ q', q.queueEnq v = .ok q' ∧ q'.WellFormed ∧
      q'.contents = q.contents ++ [v] := by
  have htail := h.tail
  have hmeet := h.meet
  have hcell : (if q.tail ≥ queueBufSz then q.tail - queueBufSz else q.tail) =
      (q.head + q.count) % queueBufSz := by
    rw [← hmeet]
    rcases Nat.lt_or_eq_of_le htail with hlt | heq
    · rw [if_neg (Nat.not_le.mpr hlt), Nat.mod_eq_of_lt hlt]
    · rw [if_pos heq.ge, heq, Nat.sub_self, Nat.mod_self]
  have hlt : (q.head + q.count) % queueBufSz < queueBufSz := Nat.mod_lt _ (by decide)
  refine ⟨{ q with
    buffer := Function.update q.buffer ((q.head + q.count) % queueBufSz) v
    tail := (q.head + q.count) % queueBufSz + 1
    count := q.count + 1 }, ?_, ⟨h.head, hlt, hroom, ?_⟩, window_push _ _ _ _ hroom v⟩
  · simp only [TtyQueue.queueEnq, assert_pos hroom, ok_bind, hcell, access_pos hlt, pure_eq_ok]
  · show ((q.head + q.count) % queueBufSz + 1) % queueBufSz =
      (q.head + (q.count + 1)) % queueBufSz
    rw [Nat.mod_add_mod, Nat.add_assoc]

/-- QUEUE_DEQ takes the oldest value; putting head and count back undoes it. -/
theorem TtyQueue.WellFormed.queueDeq (h : q.WellFormed) {v : BitVec 32} {rest : List (BitVec 32)}
    (hcontents : q.contents = v :: rest) : ∃ q', q.queueDeq = .ok (v, q') ∧ q'.WellFormed ∧
      q'.contents = rest ∧ { q' with head := q.head, count := q.count } = q := by
  have hhead := h.head
  have hcount := h.count
  have hmeet := h.meet
  have hlen : q.count = rest.length + 1 := by rw [← length_contents, hcontents, List.length_cons]
  have hwrap : (if q.head + 1 ≥ queueBufSz then q.head + 1 - queueBufSz else q.head + 1) =
      (q.head + 1) % queueBufSz := by
    rcases Nat.lt_or_eq_of_le (Nat.succ_le_of_lt hhead) with hlt | heq
    · rw [if_neg (Nat.not_le.mpr hlt), Nat.mod_eq_of_lt hlt]
    · rw [if_pos heq.ge, ← Nat.succ_eq_add_one, heq, Nat.sub_self, Nat.mod_self]
  have hpop : q.buffer (q.head % queueBufSz) ::
      window q.buffer queueBufSz (q.head + 1) rest.length = v :: rest := by
    rw [← window_pop, ← hlen]
    exact hcontents
  obtain ⟨hv, hrest⟩ := List.cons.inj hpop
  rw [Nat.mod_eq_of_lt hhead] at hv
  refine ⟨{ q with head := (q.head + 1) % queueBufSz, count := q.count - 1 }, ?_, ?_, ?_, rfl⟩
  · have hpos : q.count > 0 := by omega
    simp only [TtyQueue.queueDeq, assert_pos hpos, access_pos hhead, ok_bind, hwrap, hv, pure_eq_ok]
  · refine ⟨Nat.mod_lt _ (by decide), h.tail, ?_, ?_⟩
    · show q.count - 1 ≤ queueBufSz
      omega
    · show q.tail % queueBufSz = ((q.head + 1) % queueBufSz + (q.count - 1)) % queueBufSz
      rw [Nat.mod_add_mod, hmeet]
      congr 1
      omega
  · show window q.buffer queueBufSz ((q.head + 1) % queueBufSz) (q.count - 1) = rest
    rw [window_mod, hlen]
    exact hrest

end RxdOs.Kernel.Queue
