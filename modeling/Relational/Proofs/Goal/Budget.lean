import Relational.Proofs.Goal.Pure
import Relational.Proofs.LazyStream.Budget
import Relational.Run

/-!
# Budgets of goals

The soft cut and `once` force suspensions while they are applied, and may do so for as many rounds as
they are given. How many these are does not matter, as long as they are enough: whatever a goal is
made of, a larger budget changes no outcome (`Closure.run_approximates`), and neither does it for the
steps and the runs of a goal (`Goal.steps_approximates`, `Goal.run_approximates`). So the state that a
goal emits at a step is one and the same for all budgets (`Goal.EmitsAt.unique`).
-/

namespace Relational

open LazyStream Logged

variable {p : Program} {n m : Nat}

/-- Applying a goal forces nothing itself, so it comes to as much as forcing does. -/
theorem Goal.apply_approximates {mature mature' : Answers → Logged Answers}
    (hmature : ∀ st, (mature st).Approximates (mature' st)) (g : Goal) (ρ : Scope) (s : State) :
    (g.apply p mature ρ s).Approximates (g.apply p mature' ρ s) := by
  induction g generalizing ρ s with
  | succeed | fail | eq | call => exact .refl _
  | disj g h ihg ihh => exact (ihg ρ s).bind fun gs => (ihh ρ s).bind fun hs => .refl _
  | conj g h ihg ihh => exact (ihg ρ s).bind fun gs => appendMap_approximates (ihh ρ) _ gs
  | fresh x g ih => exact (Approximates.refl _).bind fun (y, s) => ih _ s
  | ifte g yes no ihg ihyes ihno =>
    refine (ihg ρ s).bind fun gs => (hmature gs).bind fun gs => ?_
    split
    · exact ihno ρ s
    · exact appendMap_approximates (ihyes ρ) _ gs
  | once g ih => exact (ih ρ s).bind fun gs => (hmature gs).bind fun gs => .refl _

/-- A larger budget changes nothing but that it may suffice. -/
theorem Closure.run_approximates (hnm : n ≤ m) (c : Closure) (s : State) :
    (Closure.run p n c s).Approximates (Closure.run p m c s) := by
  induction n generalizing m c s with
  | zero => exact .unending _
  | succ n ih =>
    obtain ⟨m, rfl⟩ : ∃ k, m = k + 1 := ⟨m - 1, by omega⟩
    have hle : n ≤ m := Nat.le_of_succ_le_succ hnm
    exact Goal.apply_approximates (mature_approximates (ih hle) hle) c.goal c.scope s

/-- The first `k` steps of the answers of a goal, whose names have a meaning, from a state. -/
def Closure.steps (p : Program) (rounds : Nat) (c : Closure) (s : State) (k : Nat) :
    Logged (List (Step State)) :=
  Closure.run p rounds c s >>= fun answers => answers.trace (Closure.run p rounds) k

theorem Closure.steps_approximates (hnm : n ≤ m) (c : Closure) (s : State) (k : Nat) :
    (c.steps p n s k).Approximates (c.steps p m s k) :=
  (run_approximates hnm c s).bind fun answers => trace_approximates (run_approximates hnm) k answers

namespace Goal

theorem steps_approximates (hnm : n ≤ m) (g : Goal) (s : State) (k : Nat) :
    (g.steps p n s k).Approximates (g.steps p m s k) := Closure.steps_approximates hnm ⟨g, []⟩ s k

variable {g : Goal} {s b c : State} {k : Nat}

/-- A state that is emitted is emitted at the same step with every larger budget. -/
theorem EmitsAt.mono (h : g.EmitsAt p n s k b) (hnm : n ≤ m) : g.EmitsAt p m s k b := by
  obtain ⟨steps, events, hsteps, hk⟩ := h
  exact ⟨steps, events, (steps_approximates hnm g s (k + 1)).eq_value hsteps, hk⟩

/-- Which state is emitted at a step does not depend on the budget. -/
theorem EmitsAt.unique (h : g.EmitsAt p n s k b) (h' : g.EmitsAt p m s k c) : b = c := by
  obtain ⟨steps, _, hsteps, hk⟩ := h.mono (Nat.le_max_left n m)
  obtain ⟨steps', _, hsteps', hk'⟩ := h'.mono (Nat.le_max_right n m)
  rw [hsteps] at hsteps'
  cases hsteps'
  rw [hk] at hk'
  cases hk'
  rfl

/-- Collecting states up to a limit comes to the same for a larger budget. -/
theorem run_approximates (hnm : n ≤ m) (g : Goal) (limit : Limit) :
    (g.run p n limit).Approximates (g.run p m limit) := by
  refine (Closure.run_approximates hnm ⟨g, []⟩ .empty).bind fun answers => ?_
  refine (collect_approximates (Closure.run_approximates hnm) hnm limit answers).bind fun _ => ?_
  exact .refl _

end Goal

end Relational
