import Mathlib.Order.Basic
import Relational.LazyStream.Pull

/-!
# The steps of a stream

Pulling a stream again and again gives a sequence of steps: it is forced, it emits an element, or it
stops. `LazyStream.trace` lists the first of them. Here a single step is named by its number
(`stepAt`), together with the fault that forcing may end in, and it is shown that the trace says the
same (`emitsAt_iff`, `trace_eq_fault_iff`). How often a stream has been forced before a step is
`forced`.
-/

namespace Relational.Logged

variable {α β : Type}

theorem bind_eq_value_iff {c : Logged α} {f : α → Logged β} {b : β} :
    (∃ events, c >>= f = value b events) ↔
      ∃ a before events, c = value a before ∧ f a = value b events := by
  cases c with
  | fault e => simp
  | value a before =>
    rw [value_bind]
    cases hfa : f a with
    | fault e => simp [after, hfa]
    | value b' events => simp [after, hfa]

theorem map_eq_value_iff {c : Logged α} {f : α → β} {b : β} :
    (∃ events, f <$> c = value b events) ↔ ∃ a events, c = value a events ∧ f a = b := by
  cases c <;> simp

theorem map_eq_fault_iff {c : Logged α} {f : α → β} {e : Fault} :
    f <$> c = fault e ↔ c = fault e := by
  cases c <;> simp

end Relational.Logged

namespace Relational.LazyStream

open Logged

variable {κ α : Type}

/-- Induction along the mature part of a stream. -/
@[elab_as_elim]
theorem matureInduction {motive : LazyStream κ α → Prop} (empty : motive empty)
    (cons : ∀ a d, motive d → motive (cons a d))
    (suspended : ∀ s, s.isMature = false → motive s) (s : LazyStream κ α) : motive s := by
  induction s with
  | empty => exact empty
  | cons a d ih => exact cons a d ih
  | delay | swap | bind => exact suspended _ rfl

variable (run : κ → α → Logged (LazyStream κ α))

/-- What happens at a step of a stream: the step, or the fault in which it ends. There are no steps
behind the end and behind a fault. -/
def stepAt : Nat → LazyStream κ α → Option (Except Fault (Step α))
  | 0, empty => some (.ok .stop)
  | 0, cons a _ => some (.ok (.emit a))
  | 0, s =>
    match s.force run with
    | .value _ _ => some (.ok .force)
    | .fault e => some (.error e)
  | _ + 1, empty => none
  | k + 1, cons _ d => stepAt k d
  | k + 1, s =>
    match s.force run with
    | .value s _ => stepAt k s
    | .fault _ => none

/-- How often a stream is forced before a step. -/
def forced : Nat → LazyStream κ α → Nat
  | 0, _ | _ + 1, empty => 0
  | k + 1, cons _ d => forced k d
  | k + 1, s =>
    match s.force run with
    | .value s _ => forced k s + 1
    | .fault _ => 0

/-- The stream emits an element at a step. -/
def EmitsAt (s : LazyStream κ α) (k : Nat) (a : α) : Prop :=
  ∃ steps events, s.trace run (k + 1) = .value steps events ∧ steps[k]? = some (.emit a)

/-- No step of the stream ends in a fault. -/
def Faultless (s : LazyStream κ α) : Prop := ∀ k e, stepAt run k s ≠ some (.error e)

/-- Something other than the end happens at a step. -/
def Active (k : Nat) (s : LazyStream κ α) : Prop := ∃ x, stepAt run k s = some x ∧ x ≠ .ok .stop

variable {run} {s s' : LazyStream κ α} {k : Nat} {a : α} {e : Fault} {events : List Event}

/-! ## Equations -/

@[simp] theorem stepAt_empty_zero : stepAt run 0 empty = some (.ok .stop) := rfl
@[simp] theorem stepAt_empty_succ : stepAt run (k + 1) empty = none := rfl
@[simp] theorem stepAt_cons_zero (d : LazyStream κ α) :
    stepAt run 0 (cons a d) = some (.ok (.emit a)) := rfl
@[simp] theorem stepAt_cons_succ (d : LazyStream κ α) :
    stepAt run (k + 1) (cons a d) = stepAt run k d := rfl

theorem stepAt_singleton {b : α} :
    stepAt run k (singleton a) = some (.ok (.emit b)) ↔ k = 0 ∧ b = a := by
  match k with
  | 0 => simp [singleton, eq_comm]
  | 1 => simp [singleton]
  | k + 2 => simp [singleton]

theorem stepAt_zero_of_value (h : s.isMature = false) (hf : s.force run = .value s' events) :
    stepAt run 0 s = some (.ok .force) := by
  cases s with
  | empty | cons => cases h
  | delay | swap | bind => simp only [stepAt, hf]

theorem stepAt_succ_of_value (h : s.isMature = false) (hf : s.force run = .value s' events) :
    stepAt run (k + 1) s = stepAt run k s' := by
  cases s with
  | empty | cons => cases h
  | delay | swap | bind => simp only [stepAt, hf]

theorem stepAt_zero_of_fault (h : s.isMature = false) (hf : s.force run = .fault e) :
    stepAt run 0 s = some (.error e) := by
  cases s with
  | empty | cons => cases h
  | delay | swap | bind => simp only [stepAt, hf]

theorem stepAt_succ_of_fault (h : s.isMature = false) (hf : s.force run = .fault e) :
    stepAt run (k + 1) s = none := by
  cases s with
  | empty | cons => cases h
  | delay | swap | bind => simp only [stepAt, hf]

@[simp] theorem forced_zero (s : LazyStream κ α) : forced run 0 s = 0 := by
  cases s <;> rfl

@[simp] theorem forced_cons_succ (d : LazyStream κ α) :
    forced run (k + 1) (cons a d) = forced run k d := rfl

theorem forced_succ_of_value (h : s.isMature = false) (hf : s.force run = .value s' events) :
    forced run (k + 1) s = forced run k s' + 1 := by
  cases s with
  | empty | cons => cases h
  | delay | swap | bind => simp only [forced, hf]

theorem forced_succ_of_fault (h : s.isMature = false) (hf : s.force run = .fault e) :
    forced run (k + 1) s = 0 := by
  cases s with
  | empty | cons => cases h
  | delay | swap | bind => simp only [forced, hf]

theorem not_active_empty : ¬ Active run k (empty : LazyStream κ α) := by
  rintro ⟨x, hx, hne⟩
  cases k with
  | zero => exact hne (Option.some.inj hx).symm
  | succ k => cases hx

theorem active_of_error (h : stepAt run k s = some (.error e)) : Active run k s :=
  ⟨.error e, h, fun h => nomatch h⟩

theorem active_of_emit (h : stepAt run k s = some (.ok (.emit a))) : Active run k s :=
  ⟨.ok (.emit a), h, fun h => nomatch h⟩

/-! ## Suspended streams -/

/-- A suspended stream that emits an element has been forced before. -/
theorem exists_of_stepAt_emit (h : s.isMature = false)
    (hk : stepAt run k s = some (.ok (.emit a))) :
    ∃ j s' events, k = j + 1 ∧ s.force run = .value s' events ∧
      stepAt run j s' = some (.ok (.emit a)) := by
  cases hf : s.force run with
  | fault e =>
    cases k with
    | zero => rw [stepAt_zero_of_fault h hf] at hk; cases hk
    | succ k => rw [stepAt_succ_of_fault h hf] at hk; cases hk
  | value s' events =>
    cases k with
    | zero => rw [stepAt_zero_of_value h hf] at hk; cases hk
    | succ k => exact ⟨k, s', events, rfl, rfl, by rwa [stepAt_succ_of_value h hf] at hk⟩

/-- Forcing a faultless stream gives a faultless stream. -/
theorem Faultless.exists_force (hs : s.Faultless run) (h : s.isMature = false) :
    ∃ s' events, s.force run = .value s' events ∧ s'.Faultless run := by
  cases hf : s.force run with
  | fault e => exact absurd (stepAt_zero_of_fault h hf) (hs 0 e)
  | value s' events =>
    exact ⟨s', events, rfl, fun k e hk => hs (k + 1) e (by rwa [stepAt_succ_of_value h hf])⟩

theorem faultless_empty : (empty : LazyStream κ α).Faultless run := by
  intro k e h
  cases k <;> cases h

theorem faultless_cons {d : LazyStream κ α} :
    (cons a d).Faultless run ↔ d.Faultless run := by
  constructor
  · exact fun h k e hk => h (k + 1) e hk
  · intro h k e hk
    cases k with
    | zero => cases hk
    | succ k => exact h k e hk

theorem faultless_of_value (h : s.isMature = false) (hf : s.force run = .value s' events)
    (hs : s'.Faultless run) : s.Faultless run := by
  intro k e hk
  cases k with
  | zero => rw [stepAt_zero_of_value h hf] at hk; cases hk
  | succ k => rw [stepAt_succ_of_value h hf] at hk; exact hs k e hk

/-! ## The trace -/

/-- The trace has the elements where the steps have them. -/
theorem emitsAt_iff : s.EmitsAt run k a ↔ stepAt run k s = some (.ok (.emit a)) := by
  induction k generalizing s with
  | zero =>
    induction s using matureInduction with
    | empty => simp [EmitsAt, trace_empty, pure_eq]
    | cons b d => simp [EmitsAt, trace_cons, trace_zero, pure_eq, eq_comm]
    | suspended s h =>
      rw [EmitsAt, trace_of_suspended run 0 h]
      cases hf : s.force run with
      | fault e => simp [stepAt_zero_of_fault h hf]
      | value s' events => simp [stepAt_zero_of_value h hf, trace_zero, pure_eq, after]
  | succ k ih =>
    induction s using matureInduction with
    | empty => simp [EmitsAt, trace_empty, pure_eq]
    | cons b d =>
      rw [stepAt_cons_succ, ← ih, EmitsAt, trace_cons, EmitsAt]
      cases d.trace run (k + 1) <;> simp
    | suspended s h =>
      rw [EmitsAt, trace_of_suspended run (k + 1) h]
      cases hf : s.force run with
      | fault e => simp [stepAt_succ_of_fault h hf]
      | value s' events =>
        rw [stepAt_succ_of_value h hf, ← ih, EmitsAt, value_bind]
        cases s'.trace run (k + 1) <;> simp [after]

/-- At a step one element is emitted at most. -/
theorem EmitsAt.unique {b : α} (h : s.EmitsAt run k a) (h' : s.EmitsAt run k b) : a = b := by
  rw [emitsAt_iff] at h h'
  rw [h] at h'
  cases h'
  rfl

/-- The trace ends in a fault where a step does. -/
theorem trace_eq_fault_iff :
    s.trace run k = .fault e ↔ ∃ i < k, stepAt run i s = some (.error e) := by
  induction k generalizing s with
  | zero => simp [trace_zero, pure_eq]
  | succ k ih =>
    have hsplit : ∀ P : Nat → Prop, (∃ i < k + 1, P i) ↔ P 0 ∨ ∃ i < k, P (i + 1) := by
      intro P
      exact Nat.exists_lt_succ_left
    rw [hsplit]
    induction s using matureInduction with
    | empty => simp [trace_empty, pure_eq]
    | cons b d => simp [trace_cons, map_eq_fault_iff, ih]
    | suspended s h =>
      rw [trace_of_suspended run k h]
      cases hf : s.force run with
      | fault e' => simp [stepAt_zero_of_fault h hf, stepAt_succ_of_fault h hf]
      | value s' events =>
        simp only [value_bind, stepAt_zero_of_value h hf, stepAt_succ_of_value h hf, ← ih]
        cases s'.trace run k <;> simp [after]

/-- A stream of which the end has been seen does not fault. -/
theorem faultless_of_stop_mem {steps : List (Step α)} (h : s.trace run k = .value steps events)
    (hstop : .stop ∈ steps) : s.Faultless run := by
  induction k generalizing s steps events with
  | zero =>
    rw [trace_zero, pure_eq] at h
    cases h
    cases hstop
  | succ k ih =>
    induction s using matureInduction with
    | empty => exact faultless_empty
    | cons b d =>
      rw [trace_cons] at h
      obtain ⟨rest, log, hrest, rfl⟩ := map_eq_value_iff.1 ⟨events, h⟩
      rcases List.mem_cons.1 hstop with hstop | hstop
      · cases hstop
      · exact faultless_cons.2 (ih hrest hstop)
    | suspended s hs =>
      rw [trace_of_suspended run k hs] at h
      obtain ⟨s', _, _, hf, htrace⟩ := bind_eq_value_iff.1 ⟨events, h⟩
      obtain ⟨rest, log, hrest, rfl⟩ := map_eq_value_iff.1 ⟨_, htrace⟩
      rcases List.mem_cons.1 hstop with hstop | hstop
      · cases hstop
      · exact faultless_of_value hs hf (ih hrest hstop)

end Relational.LazyStream
