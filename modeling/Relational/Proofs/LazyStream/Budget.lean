import Relational.Proofs.LazyStream.Steps

/-!
# Budgets of loops

A loop that has spent what it may spend ends in `Fault.unending`, and nothing else depends on a
budget: with a larger one, and with functions that are given larger ones, a computation has the same
outcome, unless the budget was spent before (`Logged.Approximates`). Every loop over a stream keeps
this (`trace_approximates` and the theorems beside it), so what has been seen once is seen again.
-/

namespace Relational

variable {α β σ κ : Type}

namespace Logged

/-- The first computation has spent its budget, or it has the outcome of the second one. -/
def Approximates (c c' : Logged α) : Prop := c = .fault .unending ∨ c = c'

namespace Approximates

variable {c c' : Logged α} {f f' : α → Logged β} {a : α} {events : List Event}

theorem refl (c : Logged α) : c.Approximates c := .inr rfl

theorem unending (c : Logged α) : (fault .unending).Approximates c := .inl rfl

theorem eq_value (h : c.Approximates c') (hc : c = .value a events) : c' = .value a events := by
  rcases h with rfl | rfl
  · cases hc
  · exact hc

theorem bind (h : c.Approximates c') (hf : ∀ a, (f a).Approximates (f' a)) :
    (c >>= f).Approximates (c' >>= f') := by
  rcases h with rfl | rfl
  · exact .unending _
  cases c with
  | fault e => exact .refl _
  | value a before =>
    rw [value_bind, value_bind]
    rcases hf a with ha | ha
    · rw [ha]
      exact .unending _
    · rw [ha]
      exact .refl _

theorem map (h : c.Approximates c') (f : α → β) : (f <$> c).Approximates (f <$> c') := by
  rw [← bind_pure_comp, ← bind_pure_comp]
  exact h.bind fun _ => .refl _

/-- A loop that may go more rounds comes to the same end, if its rounds do. -/
theorem iterate {step step' : σ → Logged (σ ⊕ β)} (hstep : ∀ s, (step s).Approximates (step' s))
    {n m : Nat} (hnm : n ≤ m) (s : σ) :
    (Logged.iterate step n s).Approximates (Logged.iterate step' m s) := by
  induction n generalizing m s with
  | zero => exact .unending _
  | succ n ih =>
    obtain ⟨m, rfl⟩ : ∃ k, m = k + 1 := ⟨m - 1, by omega⟩
    rw [iterate_succ, iterate_succ]
    refine (hstep s).bind fun next => ?_
    cases next with
    | inl s => exact ih (Nat.le_of_succ_le_succ hnm) s
    | inr b => exact .refl _

end Approximates

end Logged

namespace LazyStream

open Logged

variable {run run' : κ → α → Logged (LazyStream κ α)} {f : κ} {n m : Nat}

theorem appendMap_approximates {g g' : α → Logged (LazyStream κ α)}
    (hg : ∀ a, (g a).Approximates (g' a)) (f : κ) (s : LazyStream κ α) :
    (s.appendMap g f).Approximates (s.appendMap g' f) := by
  induction s using matureInduction with
  | empty => exact .refl _
  | cons a d ih =>
    rw [appendMap_cons, appendMap_cons]
    exact (hg a).bind fun part => ih.bind fun rest => .refl _
  | suspended s hs =>
    rw [appendMap_of_suspended g f hs, appendMap_of_suspended g' f hs]
    exact .refl _

variable (hrun : ∀ f a, (run f a).Approximates (run' f a))
include hrun

theorem force_approximates (s : LazyStream κ α) :
    (s.force run).Approximates (s.force run') := by
  induction s with
  | empty | cons => exact .refl _
  | delay f a => exact hrun f a
  | swap t s _ ih => exact ih.bind fun s => .refl _
  | bind s f ih => exact ih.bind fun s => appendMap_approximates (hrun f) f s

theorem mature_approximates (hnm : n ≤ m) (s : LazyStream κ α) :
    (s.mature run n).Approximates (s.mature run' m) := by
  refine .iterate (fun s => ?_) hnm s
  rw [matureRound, matureRound]
  split
  · exact .refl _
  · exact (force_approximates hrun s).map _

theorem next?_approximates (hnm : n ≤ m) (s : LazyStream κ α) :
    (s.next? run n).Approximates (s.next? run' m) := by
  refine .iterate (fun s => ?_) hnm s
  cases s with
  | empty | cons => exact .refl _
  | delay | swap | bind => exact (force_approximates hrun _).map _

theorem take_approximates (hnm : n ≤ m) (k : Nat) (s : LazyStream κ α) :
    (s.take run n k).Approximates (s.take run' m k) := by
  refine .iterate (fun (reversed, left, s) => ?_) (Nat.le_refl _) _
  cases left with
  | zero => exact .refl _
  | succ left => exact (next?_approximates hrun hnm s).bind fun found => .refl _

theorem collect_approximates (hnm : n ≤ m) (limit : Limit) (s : LazyStream κ α) :
    (s.collect run n limit).Approximates (s.collect run' m limit) := by
  refine .iterate (fun ⟨reversed, produced, forced, s⟩ => ?_) hnm _
  rw [collectRound, collectRound]
  split
  · exact .refl _
  · cases s with
    | empty | cons => exact .refl _
    | delay | swap | bind => exact (force_approximates hrun _).bind fun s => .refl _

theorem trace_approximates (k : Nat) (s : LazyStream κ α) :
    (s.trace run k).Approximates (s.trace run' k) := by
  refine .iterate (fun (reversed, left, s) => ?_) (Nat.le_refl _) _
  cases left with
  | zero => exact .refl _
  | succ left =>
    cases s with
    | empty | cons => exact .refl _
    | delay | swap | bind => exact (force_approximates hrun _).bind fun s => .refl _

end LazyStream

end Relational
