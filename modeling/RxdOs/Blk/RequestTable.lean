/- RxdOs/Blk/RequestTable
   source: kernel/blk_drv/ll_rw_blk.c
   digest: No slot of the request table is ever returned, so the table serves exactly the
   sequences of calls that fit in it once. -/

import RxdOs.Blk.Request

set_option autoImplicit false
set_option relaxedAutoImplicit false

namespace RxdOs.Blk.RequestTable

open RxdOs.Base.Assert RxdOs.Lib.Search RxdOs.Blk.Request

variable {D : Type} {hdRdwt : BioCmd → D → Kernel D}

/-- ll_rw_block calls on the hard disk, each issued after the previous one has returned. -/
def calls (hdRdwt : BioCmd → D → Kernel D) : BlkState D → List BioCmd → Kernel (BlkState D)
  | b, [] => pure b
  | b, c :: cs => do
    let b ← llRwBlock hdRdwt b blkDevHd c.rw c.sector c.count c.buffer
    calls hdRdwt b cs

/-- Every slot is free, as it should be while no request is in progress. -/
def AllFree (b : BlkState D) : Prop := ∀ i < nrRequest, (b.request i).dev = -1

def reads (cs : List BioCmd) : Nat := cs.countP (·.rw = bioRead)
def writes (cs : List BioCmd) : Nat := cs.countP (·.rw = bioWrite)

/-! ## The table as two counters -/

/-- How many slots are taken of the first third, which only reads use, and of the rest. -/
structure Taken where
  front : Nat
  back : Nat
  deriving DecidableEq

/-- One call on the counters; `none` when its part of the table is full. -/
def Taken.call (t : Taken) (rw : Int) : Option Taken :=
  if rw = bioRead ∧ t.front < 10 then some ⟨t.front + 1, t.back⟩
  else if t.back < 22 then some ⟨t.front, t.back + 1⟩
  else none

/-- The slots taken are the lowest ones of each part, and the disk is idle. -/
structure Represents (b : BlkState D) (t : Taken) : Prop where
  front_le : t.front ≤ 10
  back_le : t.back ≤ 22
  idle : b.bdRequest blkDevHd = none
  free : ∀ i < nrRequest, (b.request i).dev = -1 ↔
    (t.front ≤ i ∧ i < 10) ∨ 10 + t.back ≤ i

theorem represents_init (request : Nat → BioRequest) (device : D) :
    Represents (blkDevInit request device) ⟨0, 0⟩ := by
  refine ⟨by simp, by simp, rfl, fun i hi => ?_⟩
  simp only [blkDevInit, hi, if_true, true_iff]
  omega

/-- The slot a call takes. -/
def Taken.slot (t : Taken) (rw : Int) : Nat :=
  if rw = bioRead ∧ t.front < 10 then t.front else 10 + t.back

variable {b : BlkState D} {t t' : Taken}

theorem Represents.search (h : Represents b t) {rw : Int} :
    firstFrom (fun i => (b.request i).dev = -1) (nrRequest - searchBegin rw) (searchBegin rw) =
      t.slot rw := by
  have hfront := h.front_le
  have hback := h.back_le
  have hfree := h.free
  simp only [nrRequest] at hfree ⊢
  by_cases hrw : rw = bioRead
  · simp only [searchBegin, Taken.slot, hrw, if_true, true_and]
    split_ifs with hlt
    · refine firstFrom_eq (by omega) (by omega) (fun k _ hk => ?_) fun _ => ?_
      · rw [hfree k (by omega)]; omega
      · rw [hfree _ (by omega)]; omega
    · refine firstFrom_eq (by omega) (by omega) (fun k _ hk => ?_) fun _ => ?_
      · rw [hfree k (by omega)]; omega
      · rw [hfree _ (by omega)]; omega
  · simp only [searchBegin, Taken.slot, hrw, if_false, false_and, nrRequest]
    refine firstFrom_eq (by omega) (by omega) (fun k _ hk => ?_) fun _ => ?_
    · rw [hfree k (by omega)]; omega
    · rw [hfree _ (by omega)]; omega

theorem Represents.full_iff (h : Represents b t) (rw : Int) :
    t.slot rw = nrRequest ↔ t.call rw = none := by
  have hback := h.back_le
  simp only [Taken.slot, Taken.call, nrRequest]
  split_ifs <;> simp <;> omega

/-- What a call does to the counters, and the slot it takes. -/
theorem Taken.call_eq_some {rw : Int} (hcall : t.call rw = some t') :
    (t.slot rw = t.front ∧ t.front < 10 ∧ t' = ⟨t.front + 1, t.back⟩) ∨
      (t.slot rw = 10 + t.back ∧ t.back < 22 ∧ t' = ⟨t.front, t.back + 1⟩) := by
  simp only [Taken.call, Taken.slot] at hcall ⊢
  split_ifs at hcall ⊢ with hf hb
  · exact .inl ⟨rfl, hf.2, (Option.some.inj hcall).symm⟩
  · exact .inr ⟨rfl, hb, (Option.some.inj hcall).symm⟩

theorem Represents.stored (h : Represents b t) {rw : Int} (hcall : t.call rw = some t')
    (cmd : BioCmd) (device : D) :
    Represents (b.stored (t.slot rw) ⟨cmd, blkDevHd, none, none⟩ device) t' := by
  have hfront := h.front_le
  have hback := h.back_le
  have hdev : ¬blkDevHd = -1 := by decide
  rcases Taken.call_eq_some hcall with ⟨hslot, hlt, rfl⟩ | ⟨hslot, hlt, rfl⟩
  all_goals
    refine ⟨by simp only; omega, by simp only; omega, by simp [BlkState.stored], fun i hi => ?_⟩
    simp only [BlkState.stored, Function.update_apply, hslot]
    split_ifs with heq
    · simp only [hdev, false_iff]
      omega
    · rw [h.free i hi]
      omega

/-- A call on the real table follows the counters: it takes a slot for good, or panics
exactly when its part of the table is full. -/
theorem Represents.llRwBlock (hdrv : ∀ cmd d, ∃ d', hdRdwt cmd d = .ok d') (h : Represents b t)
    {rw : Int} (hrw : rw = bioRead ∨ rw = bioWrite) (sector count : Nat) (buffer : Int) :
    (t.call rw = none ∧ Request.llRwBlock hdRdwt b blkDevHd rw sector count buffer =
        .error (.panic "BLK: Too many requests.")) ∨
      ∃ b' t', t.call rw = some t' ∧
        Request.llRwBlock hdRdwt b blkDevHd rw sector count buffer = .ok b' ∧ Represents b' t' := by
  rw [llRwBlock_eq b rw sector count buffer h.idle hrw h.search]
  obtain ⟨device, hdevice⟩ := hdrv ⟨rw, sector, count, buffer⟩ b.device
  cases hcall : t.call rw with
  | none =>
    rw [if_pos ((h.full_iff rw).mpr hcall)]
    exact .inl ⟨rfl, rfl⟩
  | some t' =>
    have hslot : ¬t.slot rw = nrRequest := by
      rw [h.full_iff, hcall]
      simp
    rw [if_neg hslot, hdevice]
    exact .inr ⟨_, t', rfl, rfl, h.stored hcall _ device⟩

/-! ## Whole sequences -/

/-- Calls as the counters see them. -/
def Taken.calls (t : Taken) : List BioCmd → Option Taken
  | [] => some t
  | c :: cs => (t.call c.rw).bind (·.calls cs)

theorem Represents.calls (hdrv : ∀ cmd d, ∃ d', hdRdwt cmd d = .ok d') (h : Represents b t)
    {cs : List BioCmd} (hrw : ∀ c ∈ cs, c.rw = bioRead ∨ c.rw = bioWrite) :
    (t.calls cs = none ∧
        RequestTable.calls hdRdwt b cs = .error (.panic "BLK: Too many requests.")) ∨
      ∃ b' t', t.calls cs = some t' ∧ RequestTable.calls hdRdwt b cs = .ok b' ∧
        Represents b' t' := by
  induction cs generalizing b t with
  | nil => exact .inr ⟨b, t, rfl, rfl, h⟩
  | cons c cs ih =>
    rcases h.llRwBlock hdrv (hrw c (by simp)) c.sector c.count c.buffer with
      ⟨hcall, hpanic⟩ | ⟨b', t', hcall, hok, h'⟩
    · exact .inl ⟨by simp [Taken.calls, hcall], by simp [RequestTable.calls, hpanic]⟩
    · simp only [Taken.calls, hcall, Option.bind_some, RequestTable.calls, hok, ok_bind]
      exact ih h' fun c hc => hrw c (by simp [hc])

/-- Which sequences fit: every write needs a slot of the back part, and so does every
read past the tenth slot of the front part. -/
theorem Taken.calls_isSome_iff {t : Taken} (hf : t.front ≤ 10) (hb : t.back ≤ 22)
    {cs : List BioCmd} (hrw : ∀ c ∈ cs, c.rw = bioRead ∨ c.rw = bioWrite) :
    (t.calls cs).isSome ↔ t.back + writes cs + (t.front + reads cs - 10) ≤ 22 := by
  induction cs generalizing t with
  | nil => simp [Taken.calls, writes, reads]; omega
  | cons c cs ih =>
    have hrest : ∀ c ∈ cs, c.rw = bioRead ∨ c.rw = bioWrite := fun c hc => hrw c (by simp [hc])
    have hne : ¬bioRead = bioWrite := by decide
    have hne' : ¬bioWrite = bioRead := by decide
    rcases hrw c (by simp) with hc | hc
    all_goals
      have hw : writes (c :: cs) = writes cs + if c.rw = bioWrite then 1 else 0 := by
        simp [writes, List.countP_cons]
      have hr : reads (c :: cs) = reads cs + if c.rw = bioRead then 1 else 0 := by
        simp [reads, List.countP_cons]
      simp only [hc, hne, hne', if_true, if_false] at hw hr
      simp only [Taken.calls, Taken.call, hc, hne', true_and, false_and, if_false]
      rw [hw, hr]
    · split_ifs with h1 h2
      · rw [Option.bind_some, ih (by simp only; omega) (by simpa using hb) hrest]
        simp only
        omega
      · rw [Option.bind_some, ih (by simpa using hf) (by simp only; omega) hrest]
        simp only
        omega
      · simp
        omega
    · split_ifs with h2
      · rw [Option.bind_some, ih (by simpa using hf) (by simp only; omega) hrest]
        simp only
        omega
      · simp
        omega

theorem allFree_init (request : Nat → BioRequest) (device : D) :
    AllFree (blkDevInit request device) := fun i hi => by
  simp [blkDevInit, hi]

/-- A returned call leaves some slot taken. -/
theorem Represents.not_allFree (h : Represents b t) (htaken : 0 < t.front + t.back) :
    ¬AllFree b := by
  intro hall
  have hfront := h.front_le
  have hback := h.back_le
  by_cases hf : 0 < t.front
  · have h0 := (h.free 0 (by decide)).mp (hall 0 (by decide))
    omega
  · have h10 := (h.free 10 (by decide)).mp (hall 10 (by decide))
    omega

/-- The table serves a sequence exactly when it fits once, and is all free between calls
exactly when there are none. -/
theorem request_table_served_iff {D : Type} (hdRdwt : BioCmd → D → Kernel D)
    (hdrv : ∀ cmd d, ∃ d', hdRdwt cmd d = .ok d') (request : Nat → BioRequest) (device : D)
    (cs : List BioCmd) (hrw : ∀ c ∈ cs, c.rw = bioRead ∨ c.rw = bioWrite) :
    (calls hdRdwt (blkDevInit request device) cs ≠ .error (.panic "BLK: Too many requests.") ↔
        writes cs + (reads cs - 10) ≤ 22) ∧
      ((∀ pre, pre <+: cs → ∃ b, calls hdRdwt (blkDevInit request device) pre = .ok b ∧
        AllFree b) ↔ cs = []) := by
  have hinit := represents_init request device
  have hfit := Taken.calls_isSome_iff (t := ⟨0, 0⟩) (by simp) (by simp) hrw
  simp only [Nat.zero_add] at hfit
  refine ⟨?_, ?_⟩
  · rw [← hfit]
    rcases hinit.calls hdrv hrw with ⟨hnone, hpanic⟩ | ⟨b', t', hsome, hok, -⟩
    · simp [hnone, hpanic]
    · simp [hsome, hok]
  · constructor
    · intro hfree
      rcases cs with _ | ⟨c, cs⟩
      · rfl
      · -- already after the first call a slot is taken
        obtain ⟨b, hb, hall⟩ := hfree [c] (by simp)
        rcases hinit.llRwBlock hdrv (hrw c (by simp)) c.sector c.count c.buffer with
          ⟨-, hpanic⟩ | ⟨b', t', hcall, hok, hrep⟩
        · simp [calls, hpanic] at hb
        · simp only [calls, hok, ok_bind, pure_eq_ok, Except.ok.injEq] at hb
          subst hb
          refine absurd hall (hrep.not_allFree ?_)
          rcases Taken.call_eq_some hcall with ⟨-, -, rfl⟩ | ⟨-, -, rfl⟩ <;> simp
    · rintro rfl pre hpre
      rw [List.prefix_nil.mp hpre]
      exact ⟨_, rfl, allFree_init request device⟩

/-- Twenty reads and twelve writes just fit. -/
theorem request_table_served_full :
    calls (fun _ d => .ok d) (blkDevInit (fun _ => ⟨⟨0, 0, 0, 0⟩, 0, none, none⟩) ())
        (List.replicate 20 ⟨bioRead, 0, 2, 0⟩ ++ List.replicate 12 ⟨bioWrite, 0, 2, 0⟩) ≠
      .error (.panic "BLK: Too many requests.") :=
  (request_table_served_iff (fun _ d => .ok d) (fun _ d => ⟨d, rfl⟩) _ () _ (by decide)).1.mpr
    (by decide)

/-- The table is not free after one read, and the thirty-third read panics. -/
theorem request_slot_leaks :
    (∃ b, calls (fun _ d => .ok d) (blkDevInit (fun _ => ⟨⟨0, 0, 0, 0⟩, 0, none, none⟩) ())
        [⟨bioRead, 0, 2, 0⟩] = .ok b ∧ ¬AllFree b) ∧
      calls (fun _ d => .ok d) (blkDevInit (fun _ => ⟨⟨0, 0, 0, 0⟩, 0, none, none⟩) ())
        (List.replicate 33 ⟨bioRead, 0, 2, 0⟩) = .error (.panic "BLK: Too many requests.") := by
  refine ⟨⟨_, rfl, fun h => ?_⟩, ?_⟩
  · exact absurd (h 0 (by decide)) (by decide)
  · have hfull : Taken.calls ⟨0, 0⟩ (List.replicate 33 ⟨bioRead, 0, 2, 0⟩) = none := by decide
    rcases @Represents.calls _ (fun _ d => .ok d) _ _ (fun _ d => ⟨d, rfl⟩) (represents_init _ ())
      (List.replicate 33 ⟨bioRead, 0, 2, 0⟩) (by decide) with ⟨-, hpanic⟩ | ⟨_, _, hsome, -⟩
    · exact hpanic
    · rw [hfull] at hsome
      exact absurd hsome (by simp)

end RxdOs.Blk.RequestTable
