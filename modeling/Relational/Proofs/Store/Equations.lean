import Relational.Proofs.Store.MostGeneral

/-!
# Systems of equations

Equations are solved in a store one after the other (`Store.unifyAll`). In an acyclic store that has
an outcome, and as for a single equation the outcome is exact: a store that says the same as the old
one and all the equations together (`Solver`), or none when no valuation satisfies these
(`Acyclic.unifyAll_eq`). So whether a system can be solved depends on its solutions alone
(`Acyclic.exists_unifyAll_iff`).
-/

namespace Relational

/-- A list of equations between terms. -/
abbrev Equations : Type := List (Term × Term)

/-- The valuation makes both sides of every equation equal. -/
def Valuation.Solves (σ : Valuation) (es : Equations) : Prop :=
  ∀ e ∈ es, e.1.mapVars σ = e.2.mapVars σ

/-- All variables of the equations have the property. -/
def Equations.All (P : Var → Prop) (es : Equations) : Prop :=
  ∀ e ∈ es, (∀ x ∈ e.1.vars, P x) ∧ ∀ x ∈ e.2.vars, P x

namespace Valuation

variable {σ τ : Valuation} {es fs : Equations}

theorem solves_nil (σ : Valuation) : σ.Solves [] := fun _ h => nomatch h

theorem solves_cons {u v : Term} :
    σ.Solves ((u, v) :: es) ↔ u.mapVars σ = v.mapVars σ ∧ σ.Solves es := List.forall_mem_cons

theorem solves_append : σ.Solves (es ++ fs) ↔ σ.Solves es ∧ σ.Solves fs := List.forall_mem_append

/-- Whether a valuation solves equations depends on the values of their variables. -/
theorem Solves.congr {P : Var → Prop} (h : σ.Solves es) (hes : es.All P)
    (hP : ∀ x, P x → τ x = σ x) : τ.Solves es := by
  intro e he
  have ⟨h₁, h₂⟩ := hes e he
  rw [Term.mapVars_congr fun x hx => hP x (h₁ x hx), Term.mapVars_congr fun x hx => hP x (h₂ x hx)]
  exact h e he

/-- Whether a valuation satisfies a store depends on the values of the variables of the store. -/
theorem Satisfies.congr {P : Var → Prop} {s : Store} (h : σ.Satisfies s) (hs : s.All P)
    (hP : ∀ x, P x → τ x = σ x) : τ.Satisfies s := by
  intro x t hx
  have ⟨hPx, hPt⟩ := hs.of_lookup hx
  rw [hP x hPx, h x t hx, Term.mapVars_congr fun y hy => hP y (hPt y hy)]

end Valuation

namespace Store

variable {s r q : Store} {es fs : Equations} {o : Option Store}

/-- The store, extended so that the equations hold, one after the other, or nothing when that cannot
be. -/
def unifyAll (s : Store) : Equations → Except Fault (Option Store)
  | [] => .ok (some s)
  | (u, v) :: es =>
    match s.unify u v with
    | .ok (some s) => s.unifyAll es
    | refused => refused

/-- Solving one system after another is solving both together. -/
theorem unifyAll_append (s : Store) (es fs : Equations) :
    s.unifyAll (es ++ fs) =
      match s.unifyAll es with
      | .ok (some s) => s.unifyAll fs
      | refused => refused := by
  induction es generalizing s with
  | nil => rfl
  | cons e es ih =>
    simp only [List.cons_append, unifyAll]
    match s.unify e.1 e.2 with
    | .error e => rfl
    | .ok none => rfl
    | .ok (some r) => exact ih r

/-- The store `r` solves the equations in the store `s`: it extends `s` within the variables of both,
and says the same as `s` and the equations together. -/
structure Solver (s : Store) (es : Equations) (r : Store) : Prop where
  acyclic : r.Acyclic
  grows : Extends s r
  all : ∀ P : Var → Prop, s.All P → es.All P → r.All P
  satisfies_iff : ∀ σ : Valuation, σ.Satisfies r ↔ σ.Satisfies s ∧ σ.Solves es

/-- The outcome of a system in an acyclic store. -/
theorem Acyclic.unifyAll_eq (hs : s.Acyclic) (es : Equations) :
    (∃ r, s.unifyAll es = .ok (some r) ∧ Solver s es r) ∨
      (s.unifyAll es = .ok none ∧ ∀ σ : Valuation, σ.Satisfies s → ¬ σ.Solves es) := by
  induction es generalizing s with
  | nil =>
    exact .inl ⟨s, rfl, hs, .refl, fun _ h _ => h, fun σ => (and_iff_left σ.solves_nil).symm⟩
  | cons e es ih =>
    obtain ⟨u, v⟩ := e
    obtain ⟨o, ho, huv⟩ := hs.unify_eq u v
    cases huv with
    | unsolvable huv =>
      refine .inr ⟨by simp only [unifyAll, ho], fun σ hσ hsolves => huv σ hσ ?_⟩
      exact (Valuation.solves_cons.1 hsolves).1
    | @solved r huv =>
      have hunify : s.unifyAll ((u, v) :: es) = r.unifyAll es := by simp only [unifyAll, ho]
      rw [hunify]
      rcases ih huv.acyclic with ⟨q, hq, hsolver⟩ | ⟨hq, hno⟩
      · refine .inl ⟨q, hq, hsolver.acyclic, huv.grows.trans hsolver.grows, fun P hP hes => ?_,
          fun σ => ?_⟩
        · have ⟨⟨hu, hv⟩, hes⟩ := List.forall_mem_cons.1 hes
          exact hsolver.all P (huv.all P hP hu hv) hes
        · rw [hsolver.satisfies_iff σ, huv.satisfies_iff σ, Valuation.solves_cons, and_assoc]
      · refine .inr ⟨hq, fun σ hσ hsolves => ?_⟩
        have ⟨heq, hes⟩ := Valuation.solves_cons.1 hsolves
        exact hno σ ((huv.satisfies_iff σ).2 ⟨hσ, heq⟩) hes

/-- A store that comes out of a system solves it. -/
theorem Acyclic.solver_of_unifyAll (hs : s.Acyclic) (h : s.unifyAll es = .ok (some r)) :
    Solver s es r := by
  rcases hs.unifyAll_eq es with ⟨q, hq, hsolver⟩ | ⟨hq, -⟩
  · rw [h] at hq
    cases hq
    exact hsolver
  · rw [h] at hq
    cases hq

/-- A system can be solved in an acyclic store precisely when some valuation satisfies the store and
solves the system. -/
theorem Acyclic.exists_unifyAll_iff (hs : s.Acyclic) (es : Equations) :
    (∃ r, s.unifyAll es = .ok (some r)) ↔ ∃ σ : Valuation, σ.Satisfies s ∧ σ.Solves es := by
  constructor
  · rintro ⟨r, hr⟩
    have hsolver := hs.solver_of_unifyAll hr
    exact ⟨_, (hsolver.satisfies_iff _).1 hsolver.acyclic.solution_satisfies⟩
  · rintro ⟨σ, hσ, hes⟩
    rcases hs.unifyAll_eq es with ⟨r, hr, -⟩ | ⟨-, hno⟩
    · exact ⟨r, hr⟩
    · exact absurd hes (hno σ hσ)

end Store

end Relational
