/- RxdOs/Lib/Execution
   digest: Labelled executions of a transition relation, the invariant rule, and the rule
   that a property holds along an execution exactly when a guard does. -/

import Mathlib.Tactic

set_option autoImplicit false
set_option relaxedAutoImplicit false

namespace RxdOs.Lib.Execution

universe u v w

variable {σ : Type u} {α : Type v}

/-- A finite execution: each entry is an action with the state it led to. -/
inductive Exec (Step : σ → α → σ → Prop) : σ → List (α × σ) → Prop
  | nil (s : σ) : Exec Step s []
  | cons {s s' : σ} {a : α} {tr : List (α × σ)} :
      Step s a s' → Exec Step s' tr → Exec Step s ((a, s') :: tr)

/-- The state an execution ends in. -/
def last (s : σ) : List (α × σ) → σ
  | [] => s
  | (_, s') :: tr => last s' tr

/-- `P` in the first state and in every state reached afterwards. -/
def Always (P : σ → Prop) (s : σ) (tr : List (α × σ)) : Prop :=
  P s ∧ ∀ e ∈ tr, P e.2

/-- Every action of the execution is taken in a state where `C` allows it. -/
def Guarded (C : σ → α → Prop) : σ → List (α × σ) → Prop
  | _, [] => True
  | s, (a, s') :: tr => C s a ∧ Guarded C s' tr

/-- Every step of the execution is one that `R` allows. -/
def Stepwise (R : σ → α → σ → Prop) : σ → List (α × σ) → Prop
  | _, [] => True
  | s, (a, s') :: tr => R s a s' ∧ Stepwise R s' tr

@[simp] theorem last_nil (s : σ) : last s ([] : List (α × σ)) = s := rfl

@[simp] theorem last_cons (s s' : σ) (a : α) (tr : List (α × σ)) :
    last s ((a, s') :: tr) = last s' tr := rfl

@[simp] theorem always_nil {P : σ → Prop} {s : σ} :
    Always P s ([] : List (α × σ)) ↔ P s := by
  simp [Always]

@[simp] theorem always_cons {P : σ → Prop} {s s' : σ} {a : α} {tr : List (α × σ)} :
    Always P s ((a, s') :: tr) ↔ P s ∧ Always P s' tr := by
  simp [Always]

theorem Always.last {P : σ → Prop} {s : σ} {tr : List (α × σ)} (h : Always P s tr) :
    P (last s tr) := by
  induction tr generalizing s with
  | nil => exact h.1
  | cons e tr ih => exact ih (always_cons.mp h).2

theorem Always.imp {P Q : σ → Prop} (hPQ : ∀ s, P s → Q s) {s : σ} {tr : List (α × σ)}
    (h : Always P s tr) : Always Q s tr :=
  ⟨hPQ s h.1, fun e he => hPQ e.2 (h.2 e he)⟩

section Rules

variable {Step : σ → α → σ → Prop} {Inv P : σ → Prop} {C : σ → α → Prop}

/-- The invariant rule for guarded executions. -/
theorem Exec.always_of_guarded (hstep : ∀ s a s', Inv s → C s a → Step s a s' → Inv s')
    {s : σ} {tr : List (α × σ)} (h : Exec Step s tr) (hs : Inv s) (hg : Guarded C s tr) :
    Always Inv s tr := by
  induction h with
  | nil s => simpa using hs
  | cons st _ ih => exact always_cons.mpr ⟨hs, ih (hstep _ _ _ hs hg.1 st) hg.2⟩

/-- The invariant rule. -/
theorem Exec.always (hstep : ∀ s a s', Inv s → Step s a s' → Inv s')
    {s : σ} {tr : List (α × σ)} (h : Exec Step s tr) (hs : Inv s) : Always Inv s tr := by
  induction h with
  | nil s => simpa using hs
  | cons st _ ih => exact always_cons.mpr ⟨hs, ih (hstep _ _ _ hs st)⟩

/-- Where every guarded step is one of another relation, seen through `view` and `label`, so is
every guarded execution. -/
theorem Exec.simulates {τ β : Type*} {Step' : τ → β → τ → Prop} {view : σ → τ} {label : α → β}
    (hstep : ∀ s a s', Inv s → C s a → Step s a s' →
      Inv s' ∧ Step' (view s) (label a) (view s'))
    {s : σ} {tr : List (α × σ)} (h : Exec Step s tr) (hs : Inv s) (hg : Guarded C s tr) :
    Exec Step' (view s) (tr.map (Prod.map label view)) := by
  induction h with
  | nil s => exact .nil (view s)
  | cons st _ ih =>
    obtain ⟨hs', st'⟩ := hstep _ _ _ hs hg.1 st
    exact .cons st' (ih hs' hg.2)

theorem Guarded.map {τ β : Type*} {C : τ → β → Prop} (view : σ → τ) (label : α → β) {s : σ}
    {tr : List (α × σ)} (h : Guarded (fun s a => C (view s) (label a)) s tr) :
    Guarded C (view s) (tr.map (Prod.map label view)) := by
  induction tr generalizing s with
  | nil => trivial
  | cons e tr ih => exact ⟨h.1, ih h.2⟩

theorem last_map {τ β : Type*} (view : σ → τ) (label : α → β) (s : σ) (tr : List (α × σ)) :
    last (view s) (tr.map (Prod.map label view)) = view (last s tr) := by
  induction tr generalizing s with
  | nil => rfl
  | cons e tr ih => exact ih e.2

/-- The steps of a guarded execution are steps that the guard allows. -/
theorem Exec.guarded {s : σ} {tr : List (α × σ)} (h : Exec Step s tr) (hg : Guarded C s tr) :
    Exec (fun s a s' => C s a ∧ Step s a s') s tr := by
  induction h with
  | nil s => exact .nil s
  | cons st _ ih => exact .cons ⟨hg.1, st⟩ (ih hg.2)

/-- When guarded steps keep an invariant that implies `P`, and an unguarded step from the
invariant breaks `P` at once, `P` holds along an execution exactly when it is guarded. -/
theorem Exec.always_iff_guarded (himp : ∀ s, Inv s → P s)
    (hstep : ∀ s a s', Inv s → C s a → Step s a s' → Inv s')
    (hbreak : ∀ s a s', Inv s → ¬C s a → Step s a s' → ¬P s')
    {s : σ} {tr : List (α × σ)} (h : Exec Step s tr) (hs : Inv s) :
    Always P s tr ↔ Guarded C s tr := by
  constructor
  · intro hP
    induction h with
    | nil s => trivial
    | @cons s s' a tr st _ ih =>
      have htail := (always_cons.mp hP).2
      have hC : C s a := by
        by_contra hn
        exact hbreak _ _ _ hs hn st htail.1
      exact ⟨hC, ih (hstep _ _ _ hs hC st) htail⟩
  · intro hg
    exact (h.always_of_guarded hstep hs hg).imp himp

/-- Along an execution that keeps `P`, steps between `P` states have what these steps have. -/
theorem Exec.stepwise {R : σ → α → σ → Prop}
    (hR : ∀ s a s', P s → P s' → Step s a s' → R s a s') {s : σ} {tr : List (α × σ)}
    (h : Exec Step s tr) (hP : Always P s tr) : Stepwise R s tr := by
  induction h with
  | nil s => trivial
  | cons st _ ih =>
    have htail := (always_cons.mp hP).2
    exact ⟨hR _ _ _ hP.1 htail.1 st, ih htail⟩

end Rules

section Reach

variable {Step : σ → α → σ → Prop} {Inv : σ → Prop}

/-- The states reachable from `s`. -/
def Reach (Step : σ → α → σ → Prop) : σ → σ → Prop :=
  Relation.ReflTransGen fun s s' => ∃ a, Step s a s'

theorem Reach.inv {s t : σ} (h : Reach Step s t)
    (hstep : ∀ s a s', Inv s → Step s a s' → Inv s') (hs : Inv s) : Inv t := by
  induction h with
  | refl => exact hs
  | tail _ st ih =>
    obtain ⟨a, st⟩ := st
    exact hstep _ a _ ih st

theorem Exec.reach {s : σ} {tr : List (α × σ)} (h : Exec Step s tr) : Reach Step s (last s tr) := by
  induction h with
  | nil s => exact .refl
  | cons st _ ih => exact .head ⟨_, st⟩ ih

/-- Running a list of actions is an execution of them. -/
theorem exec_of_foldlM {ε : Type w} {call : σ → α → Except ε σ}
    (hcall : ∀ s a s', call s a = .ok s' → Step s a s') {as : List α} {s t : σ}
    (h : as.foldlM call s = .ok t) :
    ∃ tr, Exec Step s tr ∧ tr.map Prod.fst = as ∧ last s tr = t := by
  induction as generalizing s with
  | nil =>
    rw [List.foldlM_nil] at h
    exact ⟨[], .nil s, rfl, Except.ok.inj h⟩
  | cons a as ih =>
    rw [List.foldlM_cons] at h
    cases hs : call s a with
    | error e =>
      rw [hs] at h
      cases h
    | ok s' =>
      rw [hs] at h
      obtain ⟨tr, hexec, hactions, hlast⟩ := ih h
      exact ⟨(a, s') :: tr, .cons (hcall s a s' hs) hexec, congrArg (a :: ·) hactions, hlast⟩

/-- So it reaches the state it ends in. -/
theorem reach_of_foldlM {ε : Type w} {call : σ → α → Except ε σ}
    (hcall : ∀ s a s', call s a = .ok s' → Step s a s') {as : List α} {s t : σ}
    (h : as.foldlM call s = .ok t) : Reach Step s t := by
  obtain ⟨tr, hexec, -, rfl⟩ := exec_of_foldlM hcall h
  exact hexec.reach

end Reach

section Calls

variable {τ β ε : Type u}

/-- One call after the other, with what they answer; the first error ends the run. -/
def runAll (call : σ → α → Except ε (β × σ)) (s : σ) : List α → Except ε (List β × σ)
  | [] => .ok ([], s)
  | a :: as => do
    let (b, s) ← call s a
    let (bs, s) ← runAll call s as
    pure (b :: bs, s)

/-- Calls that answer as abstract ones do under a view of the state, run as they do. -/
theorem runAll_map {call : σ → α → Except ε (β × σ)} {call' : τ → α → Except ε (β × τ)}
    {view : σ → τ} (h : ∀ s a, (call s a).map (Prod.map id view) = call' (view s) a) (s : σ)
    (as : List α) : (runAll call s as).map (Prod.map id view) = runAll call' (view s) as := by
  induction as generalizing s with
  | nil => rfl
  | cons a as ih =>
    rw [runAll, runAll, ← h s a]
    cases call s a with
    | error e => rfl
    | ok r =>
      have hrest := ih r.2
      show ((runAll call r.2 as) >>= fun q => pure (r.1 :: q.1, q.2)).map (Prod.map id view) =
        (runAll call' (view r.2) as) >>= fun q => pure (r.1 :: q.1, q.2)
      rw [← hrest]
      cases runAll call r.2 as <;> rfl

/-- Every call of the run is one that the guard allows in the state it is made in. -/
def Allowed (call : σ → α → Except ε (β × σ)) (G : σ → α → Prop) : σ → List α → Prop
  | _, [] => True
  | s, a :: as => G s a ∧ ∀ b s', call s a = .ok (b, s') → Allowed call G s' as

theorem allowed_cons_ok {call : σ → α → Except ε (β × σ)} {G : σ → α → Prop} {s s' : σ} {a : α}
    {as : List α} {b : β} (hs : call s a = .ok (b, s')) :
    Allowed call G s (a :: as) ↔ G s a ∧ Allowed call G s' as := by
  refine and_congr_right fun _ => ⟨fun h => h b s' hs, fun h b' s₁ hs₁ => ?_⟩
  rw [hs] at hs₁
  cases hs₁
  exact h

theorem allowed_cons_error {call : σ → α → Except ε (β × σ)} {G : σ → α → Prop} {s : σ} {a : α}
    {as : List α} {e : ε} (hs : call s a = .error e) : Allowed call G s (a :: as) ↔ G s a := by
  refine ⟨fun h => h.1, fun h => ⟨h, fun b s' hok => ?_⟩⟩
  rw [hs] at hok
  cases hok

instance Allowed.decidable {call : σ → α → Except ε (β × σ)} {G : σ → α → Prop}
    [∀ s a, Decidable (G s a)] : (s : σ) → (as : List α) → Decidable (Allowed call G s as)
  | _, [] => isTrue trivial
  | s, a :: as =>
    match hs : call s a with
    | .ok (_, s') =>
      have : Decidable (Allowed call G s' as) := Allowed.decidable s' as
      decidable_of_iff' _ (allowed_cons_ok hs)
    | .error _ => decidable_of_iff' _ (allowed_cons_error hs)

/-- Where every allowed call is answered, and answered alike from related states, so is every
allowed run. -/
theorem runAll_simulates {ε' : Type u} {call : σ → α → Except ε (β × σ)}
    {call' : τ → α → Except ε' (β × τ)} {G : σ → α → Prop} {R : σ → τ → Prop}
    (hstep : ∀ s t a, R s t → G s a →
      ∃ b s' t', call s a = .ok (b, s') ∧ call' t a = .ok (b, t') ∧ R s' t')
    {s : σ} {t : τ} {as : List α} (h : R s t) (hg : Allowed call G s as) :
    ∃ bs s' t', runAll call s as = .ok (bs, s') ∧ runAll call' t as = .ok (bs, t') ∧ R s' t' := by
  induction as generalizing s t with
  | nil => exact ⟨[], s, t, rfl, rfl, h⟩
  | cons a as ih =>
    obtain ⟨hallowed, hrest⟩ := hg
    obtain ⟨b, s₁, t₁, hs, ht, h₁⟩ := hstep s t a h hallowed
    obtain ⟨bs, s', t', hruns, hrunt, h'⟩ := ih h₁ (hrest b s₁ hs)
    refine ⟨b :: bs, s', t', ?_, ?_, h'⟩
    · rw [runAll, hs]
      show (runAll call s₁ as >>= fun q => pure (b :: q.1, q.2)) = _
      rw [hruns]
      rfl
    · rw [runAll, ht]
      show (runAll call' t₁ as >>= fun q => pure (b :: q.1, q.2)) = _
      rw [hrunt]
      rfl

/-- A call made and answered, then the rest of the run. -/
theorem runAll_cons_ok {call : σ → α → Except ε (β × σ)} {s s' : σ} {a : α} {as : List α}
    {bs : List β} (h : runAll call s (a :: as) = .ok (bs, s')) :
    ∃ b s₁ rest, call s a = .ok (b, s₁) ∧ runAll call s₁ as = .ok (rest, s') ∧ bs = b :: rest := by
  rw [runAll] at h
  cases hs : call s a with
  | error e =>
    rw [hs] at h
    cases h
  | ok r =>
    obtain ⟨b, s₁⟩ := r
    rw [hs] at h
    have h : (runAll call s₁ as >>= fun q => pure (b :: q.1, q.2)) = .ok (bs, s') := h
    cases hrun : runAll call s₁ as with
    | error e =>
      rw [hrun] at h
      cases h
    | ok r =>
      obtain ⟨rest, s₂⟩ := r
      rw [hrun] at h
      cases h
      exact ⟨b, s₁, rest, rfl, hrun, rfl⟩

end Calls

end RxdOs.Lib.Execution
