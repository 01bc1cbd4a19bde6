import Relational.Event
import Relational.Fault

/-!
# Logged computations

A computation of the search gives a value and the events logged on the way, or a fault.
`Logged.iterate` is the loop of the search: it repeats a step until the step has a result, and keeps
the log of all the steps. `iterate_succ` unfolds it by one step.
-/

namespace Relational

/-- The outcome of a computation. -/
inductive Logged (α : Type) where
  /-- A value, and the events logged on the way to it, in order. -/
  | value (a : α) (events : List Event)
  | fault (e : Fault)
deriving DecidableEq

namespace Logged

variable {α β γ σ : Type}

instance : Inhabited (Logged α) := ⟨fault .unending⟩

/-- The same outcome, with more events logged before. -/
def after (before : List Event) : Logged α → Logged α
  | value a events => value a (before ++ events)
  | fault e => fault e

/-- One computation after another. -/
protected def bind : Logged α → (α → Logged β) → Logged β
  | value a before, f => (f a).after before
  | fault e, _ => fault e

instance : Monad Logged where
  pure a := value a []
  bind := Logged.bind

theorem pure_eq (a : α) : (pure a : Logged α) = value a [] := rfl

@[simp] theorem value_bind (a : α) (before : List Event) (f : α → Logged β) :
    value a before >>= f = (f a).after before := rfl

@[simp] theorem fault_bind (e : Fault) (f : α → Logged β) : fault e >>= f = fault e := rfl

@[simp] theorem after_nil (c : Logged α) : c.after [] = c := by cases c <;> rfl

theorem after_after (c : Logged α) (first second : List Event) :
    (c.after second).after first = c.after (first ++ second) := by
  cases c <;> simp [after]

theorem after_bind (c : Logged α) (f : α → Logged β) (before : List Event) :
    c.after before >>= f = (c >>= f).after before := by
  cases c with
  | value a events => exact (after_after (f a) before events).symm
  | fault e => rfl

instance : LawfulMonad Logged := LawfulMonad.mk' Logged
  (fun c => by
    cases c with
    | value a events => exact congrArg (value a) (List.append_nil events)
    | fault e => rfl)
  (fun _ _ => after_nil _)
  (fun c f g => by
    cases c with
    | value a events => exact after_bind (f a) g events
    | fault e => rfl)

@[simp] theorem map_value (f : α → β) (a : α) (events : List Event) :
    f <$> value a events = value (f a) events := by
  rw [← bind_pure_comp, value_bind, pure_eq, after, List.append_nil]

@[simp] theorem map_fault (f : α → β) (e : Fault) : f <$> fault e = fault e := by
  rw [← bind_pure_comp, fault_bind]

/-- A value that there may not be, with nothing logged. -/
def ofExcept : Except Fault α → Logged α
  | .ok a => value a []
  | .error e => fault e

/-- What remains of a computation without its log. -/
def toExcept : Logged α → Except Fault α
  | value a _ => .ok a
  | fault e => .error e

/-- Logs an event. -/
def log (e : Event) : Logged Unit := value () [e]

/-! ## Loops -/

/-- Repeats `step`, at most `n` times, until it has a result on the right. `reversed` are the events
of the steps before, the last one first. -/
def iterateFrom (step : σ → Logged (σ ⊕ β)) : Nat → List Event → σ → Logged β
  | 0, _, _ => fault .unending
  | n + 1, reversed, s =>
    match step s with
    | value (.inl s) events => iterateFrom step n (events.reverseAux reversed) s
    | value (.inr b) events => value b (reversed.reverseAux events)
    | fault e => fault e

/-- Repeats `step`, at most `n` times, until it has a result on the right. -/
def iterate (step : σ → Logged (σ ⊕ β)) (n : Nat) (s : σ) : Logged β := iterateFrom step n [] s

theorem iterateFrom_eq (step : σ → Logged (σ ⊕ β)) (n : Nat) (reversed : List Event) (s : σ) :
    iterateFrom step n reversed s = (iterate step n s).after reversed.reverse := by
  induction n generalizing reversed s with
  | zero => rfl
  | succ n ih =>
    simp only [iterate, iterateFrom]
    match step s with
    | fault e => rfl
    | value (.inr b) events => simp [after]
    | value (.inl s) events => simp [ih _ s, after_after]

theorem iterate_zero (step : σ → Logged (σ ⊕ β)) (s : σ) : iterate step 0 s = fault .unending :=
  rfl

/-- A loop makes one step, and goes on unless the step has a result. -/
theorem iterate_succ (step : σ → Logged (σ ⊕ β)) (n : Nat) (s : σ) :
    iterate step (n + 1) s = step s >>= Sum.elim (iterate step n) pure := by
  simp only [iterate, iterateFrom]
  match step s with
  | fault e => rfl
  | value (.inr b) events => simp [after, pure_eq]
  | value (.inl s) events => simp [iterateFrom_eq]

end Logged

end Relational
