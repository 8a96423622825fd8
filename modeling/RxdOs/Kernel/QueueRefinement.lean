/- RxdOs/Kernel/QueueRefinement
   source: include/io.h (QUEUE_INIT, QUEUE_ENQ, QUEUE_DEQ), kernel/io.c (tty_cook)
   digest: The ring queue with the save and restore of tty_cook is a bounded first-in first-out
   queue over every sequence of calls. -/

import RxdOs.Lib.BoundedFifo
import RxdOs.Kernel.Io

set_option autoImplicit false
set_option relaxedAutoImplicit false

namespace RxdOs.Kernel.QueueRefinement

open RxdOs.Base.Assert RxdOs.Lib.Execution RxdOs.Lib.BoundedFifo RxdOs.Kernel.Queue
  RxdOs.Kernel.Io

/-- A queue with save_head and save_count of tty_cook.  The program has no variable `fresh`: it
tells whether nothing was stored since the save. -/
structure Saving where
  q : TtyQueue
  saveHead : Nat
  saveCount : Nat
  fresh : Bool

/-- "queue restore" -/
def Saving.restored (c : Saving) : TtyQueue := { c.q with head := c.saveHead, count := c.saveCount }

/-- The macros, "queue save" and "queue restore". -/
def exec (c : Saving) : Op (BitVec 32) → Kernel (Option (BitVec 32) × Saving)
  | .init => pure (none, { c with q := c.q.queueInit, fresh := false })
  | .enq v => do
    let q ← c.q.queueEnq v
    pure (none, { c with q, fresh := false })
  | .deq => do
    let (v, q) ← c.q.queueDeq
    pure (some v, { c with q })
  | .save => pure (none, { c with saveHead := c.q.head, saveCount := c.q.count, fresh := true })
  | .restore => pure (none, { c with q := c.restored })

/-- What the callers see to: QUEUE_FULL before a store, QUEUE_EMPTY before a load, and no store
between a save and its restore. -/
def Enabled (c : Saving) : Op (BitVec 32) → Prop
  | .enq _ => ¬c.q.queueFull
  | .deq => ¬c.q.queueEmpty
  | .restore => c.fresh = true
  | .init | .save => True

instance (c : Saving) : (op : Op (BitVec 32)) → Decidable (Enabled c op)
  | .enq _ => inferInstanceAs (Decidable (¬c.q.queueFull))
  | .deq => inferInstanceAs (Decidable (¬c.q.queueEmpty))
  | .restore => inferInstanceAs (Decidable (c.fresh = true))
  | .init => isTrue trivial
  | .save => isTrue trivial

/-- After QUEUE_INIT on whatever was there. -/
def start (q : TtyQueue) (saveHead saveCount : Nat) : Saving :=
  ⟨q.queueInit, saveHead, saveCount, false⟩

/-- tty_cook restores read_q in this way. -/
theorem restored_eq (tty : Tty) (saveHead saveCount : Nat) (fresh : Bool) :
    (Saving.mk tty.readQ saveHead saveCount fresh).restored =
      (tty.restore saveHead saveCount).readQ := rfl

/-! ## One call -/

/-- The ring holds the values of the abstract queue, and a restore would bring back those taken
since the save. -/
structure Refines (c : Saving) (f : Fifo (BitVec 32)) : Prop where
  wellFormed : c.q.WellFormed
  contents : c.q.contents = f.items
  fresh : c.fresh = f.since.isSome
  restored : ∀ taken, f.since = some taken →
    c.restored.WellFormed ∧ c.restored.contents = taken ++ f.items

variable {c : Saving} {f : Fifo (BitVec 32)} {v : BitVec 32}

theorem Refines.count (h : Refines c f) : c.q.count = f.items.length := by
  rw [← h.contents, length_contents]

theorem refines_init (q : TtyQueue) (saveHead saveCount : Nat) :
    Refines (start q saveHead saveCount) .empty := by
  constructor
  · exact queueInit_wellFormed q
  · rfl
  · rfl
  · intro taken htaken
    cases htaken

theorem Refines.enq (h : Refines c f) (hroom : ¬c.q.queueFull) (v : BitVec 32) :
    ∃ c' f', exec c (.enq v) = .ok (none, c') ∧
      f.step queueBufSz (.enq v) = .ok (none, f') ∧ Refines c' f' := by
  have hlt : c.q.count < queueBufSz := lt_of_le_of_ne h.wellFormed.count hroom
  obtain ⟨q', henq, hwf, hcontents⟩ := h.wellFormed.queueEnq hlt v
  have hspace : f.items.length < queueBufSz := h.count ▸ hlt
  refine ⟨{ c with q := q', fresh := false }, ⟨f.items ++ [v], none⟩, ?_, if_pos hspace, ?_⟩
  · rw [exec, henq]
    rfl
  · refine ⟨hwf, ?_, rfl, fun taken htaken => by cases htaken⟩
    show q'.contents = f.items ++ [v]
    rw [hcontents, h.contents]

/-- A load takes the oldest value, and a restore after it would bring it back. -/
theorem Refines.deq (h : Refines c f) (hsome : ¬c.q.queueEmpty) :
    ∃ v c' f', exec c .deq = .ok (some v, c') ∧
      f.step queueBufSz .deq = .ok (some v, f') ∧ Refines c' f' := by
  obtain ⟨v, rest, hitems⟩ : ∃ v rest, f.items = v :: rest := by
    refine List.exists_cons_of_ne_nil fun hnil => hsome ?_
    rw [queueEmpty_iff, h.contents, hnil]
  obtain ⟨q', hdeq, hwf, hcontents, hback⟩ :=
    h.wellFormed.queueDeq (h.contents.trans hitems)
  refine ⟨v, { c with q := q' }, ⟨rest, f.since.map (· ++ [v])⟩, ?_, ?_, ?_⟩
  · rw [exec, hdeq]
    rfl
  · simp only [Fifo.step, hitems]
  · -- the load changes head and count only, which the restore sets
    have hsame : ({ c with q := q' } : Saving).restored = c.restored := by
      show { q' with head := c.saveHead, count := c.saveCount } = _
      rw [Saving.restored, ← hback]
    refine ⟨hwf, hcontents, ?_, fun taken htaken => ?_⟩
    · show c.fresh = _
      rw [h.fresh, Option.isSome_map]
    · obtain ⟨before, hbefore, rfl⟩ := Option.map_eq_some_iff.mp htaken
      obtain ⟨hrwf, hrcontents⟩ := h.restored before hbefore
      rw [hsame]
      refine ⟨hrwf, ?_⟩
      show _ = before ++ [v] ++ rest
      rw [hrcontents, hitems, List.append_assoc, List.singleton_append]

theorem Refines.save (h : Refines c f) : ∃ c' f', exec c .save = .ok (none, c') ∧
    f.step queueBufSz .save = .ok (none, f') ∧ Refines c' f' := by
  refine ⟨_, _, rfl, rfl, h.wellFormed, h.contents, rfl, fun taken htaken => ?_⟩
  cases htaken
  exact ⟨h.wellFormed, h.contents⟩

theorem Refines.restore (h : Refines c f) (hfresh : c.fresh = true) :
    ∃ c' f', exec c .restore = .ok (none, c') ∧
      f.step queueBufSz .restore = .ok (none, f') ∧ Refines c' f' := by
  obtain ⟨taken, htaken⟩ := Option.isSome_iff_exists.mp (h.fresh.symm.trans hfresh)
  obtain ⟨hwf, hcontents⟩ := h.restored taken htaken
  refine ⟨{ c with q := c.restored }, ⟨taken ++ f.items, some []⟩, rfl, ?_, hwf, hcontents, hfresh,
    fun taken' htaken' => ?_⟩
  · simp only [Fifo.step, htaken]
  · cases htaken'
    exact ⟨hwf, hcontents⟩

/-- Every enabled call is made by both, with the same answer. -/
theorem Refines.step (h : Refines c f) (op : Op (BitVec 32)) (hop : Enabled c op) :
    ∃ out c' f', exec c op = .ok (out, c') ∧ f.step queueBufSz op = .ok (out, f') ∧
      Refines c' f' := by
  cases op with
  | init => exact ⟨none, _, _, rfl, rfl, refines_init c.q c.saveHead c.saveCount⟩
  | enq v => exact ⟨none, h.enq hop v⟩
  | deq =>
    obtain ⟨v, hdeq⟩ := h.deq hop
    exact ⟨some v, hdeq⟩
  | save => exact ⟨none, h.save⟩
  | restore => exact ⟨none, h.restore hop⟩

/-! ## Every sequence of calls -/

/-- What has come of a sequence of calls: the answers of a bounded queue and its values, counted;
nothing lost, doubled or out of order; and a restore puts back what was taken since the save. -/
structure Faithful (ops : List (Op (BitVec 32))) (outs : List (Option (BitVec 32)))
    (c : Saving) : Prop where
  fifo : ∃ f, runAll (Fifo.step queueBufSz) .empty ops = .ok (outs, f) ∧
    c.q.contents = f.items ∧ c.q.count = f.items.length ∧ f.items.length ≤ queueBufSz
  order : (History.start.events (ops.zip outs)).entered =
    (History.start.events (ops.zip outs)).left ++ c.q.contents
  undo : c.fresh = true → ∃ taken, c.restored.contents = taken ++ c.q.contents ∧
    (History.start.events (ops.zip outs)).left =
      (History.start.events (ops.zip outs)).mark ++ taken

theorem queue_faithful (q : TtyQueue) (saveHead saveCount : Nat) (ops : List (Op (BitVec 32)))
    (h : Allowed exec Enabled (start q saveHead saveCount) ops) :
    ∃ outs c, runAll exec (start q saveHead saveCount) ops = .ok (outs, c) ∧
      Faithful ops outs c := by
  obtain ⟨outs, c, f, hrun, hfifo, hcf⟩ := runAll_simulates (fun _ _ op hcf => hcf.step op)
    (refines_init q saveHead saveCount) h
  have hhistory : Explains (History.start.events (ops.zip outs)) f :=
    explains_empty.runAll hfifo
  have hcapacity : f.items.length ≤ queueBufSz := hcf.count ▸ hcf.wellFormed.count
  refine ⟨outs, c, hrun, ⟨f, hfifo, hcf.contents, hcf.count, hcapacity⟩, ?_, fun hfresh => ?_⟩
  · rw [hcf.contents]
    exact hhistory.entered
  · obtain ⟨taken, htaken⟩ := Option.isSome_iff_exists.mp (hcf.fresh.symm.trans hfresh)
    refine ⟨taken, ?_, hhistory.since taken htaken⟩
    rw [hcf.contents]
    exact (hcf.restored taken htaken).2

/-- Two values in, one taken out twice. -/
def twice : List (Op (BitVec 32)) := [.enq 1, .enq 2, .save, .deq, .restore, .deq]

theorem queue_faithful_twice :
    Allowed exec Enabled (start ⟨5, 7, 3, fun _ => 0⟩ 0 0) twice ∧
      ∃ outs c, runAll exec (start ⟨5, 7, 3, fun _ => 0⟩ 0 0) twice = .ok (outs, c) ∧
        Faithful twice outs c := by
  have hallowed : Allowed exec Enabled (start ⟨5, 7, 3, fun _ => 0⟩ 0 0) twice := by decide
  exact ⟨hallowed, queue_faithful ⟨5, 7, 3, fun _ => 0⟩ 0 0 twice hallowed⟩

/-- Its answers. -/
example : ((runAll exec (start ⟨5, 7, 3, fun _ => 0⟩ 0 0) twice).map Prod.fst) =
    .ok [none, none, none, some 1, none, some 1] := by decide

end RxdOs.Kernel.QueueRefinement
