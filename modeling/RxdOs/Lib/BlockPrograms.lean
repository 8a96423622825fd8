/- RxdOs/Lib/BlockPrograms
   digest: Programs that visit numbered blocks one at a time: their runs on any server of
   blocks, the states a run is cut off in, and simulation between two servers. -/

import RxdOs.Lib.Execution

set_option autoImplicit false
set_option relaxedAutoImplicit false

namespace RxdOs.Lib.BlockPrograms

open RxdOs.Lib.Execution

universe u

/-- A visit looks at one block, may put it back changed, and goes on from what it saw. -/
inductive Prog (ν β ε α : Type u) : Type u
  | done (a : α)
  | fail (e : ε)
  | visit (nr : ν) (put : β → Option β) (next : β → Prog ν β ε α)

/-- One visit on the blocks as `σ` keeps them, with the block as it was. -/
abbrev Server (ν β ε σ : Type u) := σ → ν → (β → Option β) → Except ε (β × σ)

variable {ν β ε α γ σ τ : Type u}

namespace Prog

def bind : Prog ν β ε α → (α → Prog ν β ε γ) → Prog ν β ε γ
  | done a, f => f a
  | fail e, _ => fail e
  | visit nr put next, f => visit nr put fun b => (next b).bind f

instance : Monad (Prog ν β ε) where
  pure := done
  bind := Prog.bind

/-- What needs no block. -/
def lift : Except ε α → Prog ν β ε α
  | .ok a => done a
  | .error e => fail e

/-- A visit that only looks. -/
def look (nr : ν) : Prog ν β ε β := visit nr (fun _ => none) done

/-- A visit that only changes. -/
def change (nr : ν) (f : β → β) : Prog ν β ε PUnit := visit nr (fun b => some (f b)) fun _ => done ⟨⟩

/-- The whole run. -/
def run (serve : Server ν β ε σ) : Prog ν β ε α → σ → Except ε (α × σ)
  | done a, s => .ok (a, s)
  | fail e, _ => .error e
  | visit nr put next, s => do
    let (b, s) ← serve s nr put
    (next b).run serve s

/-- What is there when the run is cut off after `n` visits, unless it has ended before. -/
def cut (serve : Server ν β ε σ) : Nat → Prog ν β ε α → σ → σ
  | n + 1, visit nr put next, s =>
    match serve s nr put with
    | .ok (b, s') => cut serve n (next b) s'
    | .error _ => s
  | _, _, s => s

/-- `I` holds wherever the run is cut off. -/
def Keeps (serve : Server ν β ε σ) (I : σ → Prop) (p : Prog ν β ε α) (s : σ) : Prop :=
  ∀ n, I (p.cut serve n s)

/-- Wherever the run is cut off, `I` holds, or the run has made all of its changes. -/
def Commits (serve : Server ν β ε σ) (I : σ → Prop) (p : Prog ν β ε α) (s : σ) : Prop :=
  p.Keeps serve (fun t => I t ∨ ∃ a, p.run serve s = .ok (a, t)) s

end Prog

/-- The blocks themselves, as a function. -/
def putAt [DecidableEq ν] (d : ν → β) (nr : ν) (put : β → Option β) : ν → β :=
  (put (d nr)).elim d (Function.update d nr)

def plain [DecidableEq ν] : Server ν β ε (ν → β) := fun d nr put => .ok (d nr, putAt d nr put)

@[simp] theorem putAt_none [DecidableEq ν] (d : ν → β) (nr : ν) :
    putAt d nr (fun _ => none) = d := rfl

@[simp] theorem putAt_some [DecidableEq ν] (d : ν → β) (nr : ν) (f : β → β) :
    putAt d nr (fun b => some (f b)) = Function.update d nr (f (d nr)) := rfl

namespace Prog

variable {serve : Server ν β ε σ} {serve' : Server ν β ε τ} {p : Prog ν β ε α}
  {f : α → Prog ν β ε γ} {s : σ} {I : σ → Prop}

/-! ## Runs -/

section Runs

theorem map_bind (x : Except ε α) (f : α → Except ε γ) {δ : Type u} (g : γ → δ) :
    (x >>= f).map g = x >>= fun a => (f a).map g := by
  cases x <;> rfl

theorem bind_map {δ : Type u} (x : Except ε α) (g : α → δ) (f : δ → Except ε γ) :
    x.map g >>= f = x >>= fun a => f (g a) := by
  cases x <;> rfl

@[simp] theorem run_done (a : α) : (done a : Prog ν β ε α).run serve s = .ok (a, s) := rfl

@[simp] theorem run_pure (a : α) : (pure a : Prog ν β ε α).run serve s = .ok (a, s) := rfl

@[simp] theorem run_fail (e : ε) : (fail e : Prog ν β ε α).run serve s = .error e := rfl

theorem pure_then (a : α) (f : α → Prog ν β ε γ) : (pure a : Prog ν β ε α) >>= f = f a := rfl

theorem run_lift (r : Except ε α) :
    (lift r : Prog ν β ε α).run serve s = r.map fun a => (a, s) := by
  cases r <;> rfl

theorem run_bind (p : Prog ν β ε α) (f : α → Prog ν β ε γ) (s : σ) :
    (p.bind f).run serve s = p.run serve s >>= fun r => (f r.1).run serve r.2 := by
  induction p generalizing s with
  | done a => rfl
  | fail e => rfl
  | visit nr put next ih =>
    simp only [bind, run]
    cases serve s nr put with
    | error e => rfl
    | ok r => exact ih r.1 r.2

theorem run_bind' (p : Prog ν β ε α) (f : α → Prog ν β ε γ) (s : σ) :
    (p >>= f).run serve s = p.run serve s >>= fun r => (f r.1).run serve r.2 := run_bind p f s

/-- A sequence whose first part runs as a function does. -/
theorem run_bind_map {δ : Type u} {x : Except ε δ} {g : δ → α × σ}
    (h : p.run serve s = x.map g) (f : α → Prog ν β ε γ) :
    (p >>= f).run serve s = x >>= fun r => (f (g r).1).run serve (g r).2 := by
  rw [run_bind', h]
  cases x <;> rfl

theorem run_lift_bind (r : Except ε α) (f : α → Prog ν β ε γ) (s : σ) :
    (lift r >>= f).run serve s = r >>= fun a => (f a).run serve s := run_bind_map (run_lift r) f

/-- The same where both are seen through functions of what they leave. -/
theorem run_bind_view {δ ζ : Type u} {g : α × σ → δ} {g' : γ × σ → ζ} {x : Except ε δ}
    {k : δ → Except ε ζ} (h : (p.run serve s).map g = x)
    (hk : ∀ r, ((f r.1).run serve r.2).map g' = k (g r)) :
    ((p >>= f).run serve s).map g' = x >>= k := by
  rw [run_bind', map_bind, ← h]
  cases p.run serve s with
  | error e => rfl
  | ok r => exact hk r

variable [DecidableEq ν] {d d' : ν → β}

@[simp] theorem run_look (nr : ν) :
    (look nr : Prog ν β ε β).run plain d = .ok (d nr, d) := rfl

@[simp] theorem run_change (nr : ν) (f : β → β) :
    (change nr f : Prog ν β ε PUnit).run plain d =
      .ok (⟨⟩, Function.update d nr (f (d nr))) := rfl

@[simp] theorem run_visit (nr : ν) (put : β → Option β) (next : β → Prog ν β ε α) :
    (visit nr put next).run plain d = (next (d nr)).run plain (putAt d nr put) := rfl

end Runs

/-! ## Cut off runs -/

section Cuts

theorem keeps_zero (h : p.Keeps serve I s) : I s := by
  have h0 := h 0
  rwa [cut] at h0
  intro n nr put next hn
  exact absurd hn (Nat.succ_ne_zero n).symm

theorem keeps_done {a : α} : (done a : Prog ν β ε α).Keeps serve I s ↔ I s := by
  refine ⟨keeps_zero, fun h n => ?_⟩
  cases n <;> exact h

theorem keeps_fail {e : ε} : (fail e : Prog ν β ε α).Keeps serve I s ↔ I s := by
  refine ⟨keeps_zero, fun h n => ?_⟩
  cases n <;> exact h

theorem keeps_lift {r : Except ε α} : (lift r : Prog ν β ε α).Keeps serve I s ↔ I s := by
  cases r with
  | ok a => exact keeps_done
  | error e => exact keeps_fail

theorem keeps_visit {nr : ν} {put : β → Option β} {next : β → Prog ν β ε α} :
    (visit nr put next).Keeps serve I s ↔
      I s ∧ ∀ b s', serve s nr put = .ok (b, s') → (next b).Keeps serve I s' := by
  constructor
  · intro h
    refine ⟨keeps_zero h, fun b s' hserve n => ?_⟩
    have hn := h (n + 1)
    simp only [cut, hserve] at hn
    exact hn
  · rintro ⟨hs, hrest⟩ n
    cases n with
    | zero => exact hs
    | succ n =>
      rw [cut]
      split
      · rename_i b s' hserve
        exact hrest b s' hserve n
      · exact hs

/-- A sequence is cut off in its first part, or in the second after the first has returned. -/
theorem keeps_bind : (p.bind f).Keeps serve I s ↔
    p.Keeps serve I s ∧ ∀ a s', p.run serve s = .ok (a, s') → (f a).Keeps serve I s' := by
  induction p generalizing s with
  | done a =>
    refine ⟨fun h => ⟨keeps_done.mpr (keeps_zero h), fun a' s' heq => ?_⟩, fun h => h.2 a s rfl⟩
    cases heq
    exact h
  | fail e =>
    refine ⟨fun h => ⟨keeps_fail.mpr (keeps_zero h), fun a s' heq => ?_⟩,
      fun h => keeps_fail.mpr (keeps_zero h.1)⟩
    cases heq
  | visit nr put next ih =>
    rw [bind, keeps_visit, keeps_visit, and_assoc]
    refine and_congr_right fun _ => ⟨fun h => ⟨fun b s' hb => ?_, fun a s' hrun => ?_⟩, ?_⟩
    · exact ((ih b).mp (h b s' hb)).1
    · simp only [run] at hrun
      cases hserve : serve s nr put with
      | error e =>
        rw [hserve] at hrun
        cases hrun
      | ok r =>
        rw [hserve] at hrun
        exact ((ih r.1).mp (h r.1 r.2 hserve)).2 a s' hrun
    · rintro ⟨hnext, hdone⟩ b s' hserve
      refine (ih b).mpr ⟨hnext b s' hserve, fun a s₁ hrun => hdone a s₁ ?_⟩
      rw [run, hserve]
      exact hrun

theorem Keeps.mono {J : σ → Prop} (h : p.Keeps serve I s) (hIJ : ∀ s, I s → J s) :
    p.Keeps serve J s := fun n => hIJ _ (h n)

/-- Where the run ends is one of the places it can be cut off. -/
theorem Keeps.run {a : α} {s' : σ} (h : p.Keeps serve I s) (hrun : p.run serve s = .ok (a, s')) :
    I s' := by
  induction p generalizing s with
  | done b =>
    cases hrun
    exact keeps_zero h
  | fail e => cases hrun
  | visit nr put next ih =>
    simp only [Prog.run] at hrun
    cases hserve : serve s nr put with
    | error e =>
      rw [hserve] at hrun
      cases hrun
    | ok r =>
      rw [hserve] at hrun
      exact ih r.1 ((keeps_visit.mp h).2 r.1 r.2 hserve) hrun

theorem Keeps.andThen (h : p.Keeps serve I s)
    (hf : ∀ a s', p.run serve s = .ok (a, s') → (f a).Keeps serve I s') :
    (p >>= f).Keeps serve I s := keeps_bind.mpr ⟨h, hf⟩

theorem keeps_lift_bind {r : Except ε α} (hs : I s) (hf : ∀ a, r = .ok a → (f a).Keeps serve I s) :
    (lift r >>= f).Keeps serve I s := by
  refine Keeps.andThen (keeps_lift.mpr hs) ?_
  intro a s' hrun
  cases r with
  | error e => cases hrun
  | ok a' =>
    cases hrun
    exact hf _ rfl

variable [DecidableEq ν] {d : ν → β} {K : (ν → β) → Prop}

theorem keeps_look {nr : ν} : (look nr : Prog ν β ε β).Keeps plain K d ↔ K d := by
  refine ⟨keeps_zero, fun h => keeps_visit.mpr ⟨h, fun b d' heq => ?_⟩⟩
  cases heq
  exact keeps_done.mpr h

theorem keeps_change {nr : ν} {f : β → β} : (change nr f : Prog ν β ε PUnit).Keeps plain K d ↔
    K d ∧ K (Function.update d nr (f (d nr))) := by
  rw [change, keeps_visit]
  refine and_congr_right fun _ => ⟨fun h => keeps_zero (h _ _ rfl), fun h b d' heq => ?_⟩
  cases heq
  exact keeps_done.mpr h

theorem keeps_change_bind {nr : ν} {f : β → β} {g : PUnit → Prog ν β ε α} (hd : K d)
    (h : (g ⟨⟩).Keeps plain K (Function.update d nr (f (d nr)))) :
    (change nr f >>= g).Keeps plain K d := by
  refine Keeps.andThen (keeps_change.mpr ⟨hd, keeps_zero h⟩) ?_
  intro _ d' hrun
  cases hrun
  exact h

end Cuts

/-! ## The last change -/

section Commits

theorem commits_done (a : α) : (done a : Prog ν β ε α).Commits serve I s :=
  keeps_done.mpr (.inr ⟨a, rfl⟩)

theorem Keeps.commits (h : p.Keeps serve I s) : p.Commits serve I s := h.mono fun _ => .inl

theorem commits_visit {nr : ν} {put : β → Option β} {next : β → Prog ν β ε α} (hs : I s)
    (h : ∀ b s', serve s nr put = .ok (b, s') → (next b).Commits serve I s') :
    (visit nr put next).Commits serve I s := by
  refine keeps_visit.mpr ⟨.inl hs, fun b s' hserve => (h b s' hserve).mono ?_⟩
  rintro t (ht | ⟨a, hrun⟩)
  · exact .inl ht
  · refine .inr ⟨a, ?_⟩
    rw [Prog.run, hserve]
    exact hrun

/-- `I` holds all through the first part, and the changes of the second are the last ones. -/
theorem Commits.andThen (h : p.Keeps serve I s)
    (hf : ∀ a s', p.run serve s = .ok (a, s') → (f a).Commits serve I s') :
    (p >>= f).Commits serve I s := by
  refine Keeps.andThen (h.mono fun _ => .inl) fun a s' hrun => (hf a s' hrun).mono ?_
  rintro t (ht | ⟨b, hrest⟩)
  · exact .inl ht
  · refine .inr ⟨b, ?_⟩
    rw [run_bind', hrun]
    exact hrest

theorem commits_lift_bind {r : Except ε α} (hs : I s)
    (hf : ∀ a, r = .ok a → (f a).Commits serve I s) : (lift r >>= f).Commits serve I s := by
  refine Commits.andThen (keeps_lift.mpr hs) ?_
  intro a s' hrun
  cases r with
  | error e => cases hrun
  | ok a' =>
    cases hrun
    exact hf _ rfl

/-- The first part makes the last change. -/
theorem Commits.map (h : p.Commits serve I s) (g : α → γ) :
    (p >>= fun a => pure (g a)).Commits serve I s := by
  have hmono : ∀ t, (I t ∨ ∃ a, p.run serve s = .ok (a, t)) →
      I t ∨ ∃ b, (p >>= fun a => pure (g a)).run serve s = .ok (b, t) := by
    rintro t (ht | ⟨a, hrun⟩)
    · exact .inl ht
    · refine .inr ⟨g a, ?_⟩
      rw [run_bind', hrun]
      rfl
  refine Keeps.andThen (Keeps.mono h hmono) fun a s' hrun => keeps_done.mpr (hmono s' ?_)
  exact .inr ⟨a, hrun⟩

/-- A run that commits ends where `I` does when its result does. -/
theorem Commits.keeps (h : p.Commits serve I s) (hend : ∀ a t, p.run serve s = .ok (a, t) → I t) :
    p.Keeps serve I s := by
  refine Keeps.mono h ?_
  rintro t (ht | ⟨a, hrun⟩)
  · exact ht
  · exact hend a t hrun

variable [DecidableEq ν] {d : ν → β} {K : (ν → β) → Prop}

theorem commits_change {nr : ν} (f : β → β) (hd : K d) :
    (change nr f : Prog ν β ε PUnit).Commits plain K d := by
  refine commits_visit hd ?_
  intro b d' _
  exact commits_done _

theorem commits_change_bind {nr : ν} {f : β → β} {g : PUnit → Prog ν β ε α} (hd : K d)
    (hd' : K (Function.update d nr (f (d nr))))
    (h : (g ⟨⟩).Commits plain K (Function.update d nr (f (d nr)))) :
    (change nr f >>= g).Commits plain K d := by
  refine Commits.andThen (keeps_change.mpr ⟨hd, hd'⟩) ?_
  intro _ d' hrun
  cases hrun
  exact h

end Commits

/-! ## Two servers -/

section Simulation

variable {R : σ → τ → Prop} {t : τ}

/-- Every visit that one server answers is answered alike by the other, from related states. -/
def Answers (R : σ → τ → Prop) (serve : Server ν β ε σ) (serve' : Server ν β ε τ) : Prop :=
  ∀ s t nr put b s', R s t → serve s nr put = .ok (b, s') →
    ∃ t', serve' t nr put = .ok (b, t') ∧ R s' t'

theorem run_simulates (hR : Answers R serve serve') (h : R s t) {a : α} {s' : σ}
    (hrun : p.run serve s = .ok (a, s')) : ∃ t', p.run serve' t = .ok (a, t') ∧ R s' t' := by
  induction p generalizing s t with
  | done b =>
    cases hrun
    exact ⟨t, rfl, h⟩
  | fail e => cases hrun
  | visit nr put next ih =>
    simp only [run] at hrun ⊢
    cases hserve : serve s nr put with
    | error e =>
      rw [hserve] at hrun
      cases hrun
    | ok r =>
      obtain ⟨b, s₁⟩ := r
      rw [hserve] at hrun
      obtain ⟨t₁, ht, h₁⟩ := hR s t nr put b s₁ h hserve
      rw [ht]
      exact ih b h₁ hrun

/-- A run that is cut off is related to one that is cut off as early, or earlier where the first
server did not answer. -/
theorem cut_simulates (hR : Answers R serve serve') (h : R s t) (n : Nat) :
    ∃ m ≤ n, R (p.cut serve n s) (p.cut serve' m t) := by
  induction n generalizing p s t with
  | zero =>
    refine ⟨0, le_rfl, ?_⟩
    cases p <;> exact h
  | succ n ih =>
    cases p with
    | done a => exact ⟨0, Nat.zero_le _, h⟩
    | fail e => exact ⟨0, Nat.zero_le _, h⟩
    | visit nr put next =>
      cases hserve : serve s nr put with
      | error e =>
        refine ⟨0, Nat.zero_le _, ?_⟩
        simp only [cut, hserve]
        exact h
      | ok r =>
        obtain ⟨b, s₁⟩ := r
        obtain ⟨t₁, ht, h₁⟩ := hR s t nr put b s₁ h hserve
        obtain ⟨m, hm, hcut⟩ := ih (p := next b) h₁
        refine ⟨m + 1, Nat.succ_le_succ hm, ?_⟩
        simp only [cut, hserve, ht]
        exact hcut

theorem Keeps.simulates {J : τ → Prop} (hR : Answers R serve serve') (h : R s t)
    (hkeeps : p.Keeps serve' J t) : p.Keeps serve (fun s => ∃ t, R s t ∧ J t) s := by
  intro n
  obtain ⟨m, -, hcut⟩ := cut_simulates (p := p) hR h n
  exact ⟨_, hcut, hkeeps m⟩

end Simulation

end Prog

end RxdOs.Lib.BlockPrograms
