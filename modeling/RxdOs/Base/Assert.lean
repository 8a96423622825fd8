/- RxdOs/Base/Assert
   source: include/assert.h
   digest: The ways a kernel call stops for good, and the bind rules of calls that may stop. -/

import Mathlib.Tactic

set_option autoImplicit false
set_option relaxedAutoImplicit false

namespace RxdOs.Base.Assert

/-- How the kernel stops: both macros of assert.h print their text and spin in
`while(1)`.  `fault` stands for an access C gives no meaning to (a NULL
pointer, an index outside its array). -/
inductive Halt
  | assertFailed (exp : String)
  | panic (msg : String)
  | fault (what : String)
  deriving DecidableEq, Repr

/-- A kernel call returns a value or stops the machine. -/
abbrev Kernel := Except Halt

def assert (p : Prop) [Decidable p] (exp : String) : Kernel Unit :=
  if p then .ok () else .error (.assertFailed exp)

/-- An access that is only meaningful when `p` holds. -/
def access (p : Prop) [Decidable p] (what : String) : Kernel Unit :=
  if p then .ok () else .error (.fault what)

variable {α β : Type}

theorem bind_eq_ok {x : Kernel α} {f : α → Kernel β} {b : β} :
    (x >>= f) = .ok b ↔ ∃ a, x = .ok a ∧ f a = .ok b := by
  cases x with
  | ok a => simp [bind, Except.bind]
  | error e => simp [bind, Except.bind]

theorem bind_eq_error {x : Kernel α} {f : α → Kernel β} {e : Halt} :
    (x >>= f) = .error e ↔ x = .error e ∨ ∃ a, x = .ok a ∧ f a = .error e := by
  cases x with
  | ok a => simp [bind, Except.bind]
  | error e' => simp [bind, Except.bind]

@[simp] theorem ok_bind (a : α) (f : α → Kernel β) : ((.ok a : Kernel α) >>= f) = f a := rfl

@[simp] theorem error_bind (e : Halt) (f : α → Kernel β) :
    ((.error e : Kernel α) >>= f) = .error e := rfl

@[simp] theorem pure_eq_ok (a : α) : (pure a : Kernel α) = .ok a := rfl

@[simp] theorem assert_eq_ok {p : Prop} [Decidable p] {exp : String} {u : Unit} :
    assert p exp = .ok u ↔ p := by
  unfold assert
  split <;> simp_all

@[simp] theorem access_eq_ok {p : Prop} [Decidable p] {what : String} {u : Unit} :
    access p what = .ok u ↔ p := by
  unfold access
  split <;> simp_all

@[simp] theorem assert_eq_error {p : Prop} [Decidable p] {exp : String} {e : Halt} :
    assert p exp = .error e ↔ ¬p ∧ e = .assertFailed exp := by
  unfold assert
  split <;> simp_all [eq_comm]

@[simp] theorem access_eq_error {p : Prop} [Decidable p] {what : String} {e : Halt} :
    access p what = .error e ↔ ¬p ∧ e = .fault what := by
  unfold access
  split <;> simp_all [eq_comm]

theorem assert_pos {p : Prop} [Decidable p] (h : p) (exp : String) : assert p exp = .ok () :=
  if_pos h

theorem access_pos {p : Prop} [Decidable p] (h : p) (what : String) : access p what = .ok () :=
  if_pos h

/-- A guarded branch that stops the machine returns only when the guard is off. -/
theorem ite_error_eq_ok {p : Prop} [Decidable p] {e : Halt} {x : Kernel α} {a : α} :
    (if p then (.error e : Kernel α) else x) = .ok a ↔ ¬p ∧ x = .ok a := by
  split <;> simp_all

end RxdOs.Base.Assert
