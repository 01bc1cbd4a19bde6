import Relational.Proofs.Goal.Freshness
import Relational.Proofs.Goal.Positions
import Relational.Proofs.Store.Canonical
import Relational.Proofs.Store.MostGeneral

/-!
# What a state ranges over

A state is known by the valuations that satisfy its store, and of these by what one looks at. A state
ranges over a predicate `R` through a view when the views of its valuations are what `R` says and
nothing is said of the variables that are still to be allocated (`State.Ranges`). Then each of the basic
goals has one rule. An equation of terms whose values can be read off the view (`Term.SeenAs`) restricts
`R`, and leaves no state when nothing is left of it (`Outcome`, `Ranges.exists_gives_eq`); an allocated
variable can have any value (`Ranges.fresh`). What is looked at may change at any time (`Ranges.map`).

Which bindings a store has for this is of no interest. A term is shown as any term of which the instances
are the values that it ranges over (`Ranges.reify_eq`).
-/

namespace Relational

open LazyStream

variable {α β : Type} {p : Program} {n c : Nat} {ρ : Scope} {view : Valuation → α} {R : α → Prop}
  {s : State} {t u v : Term}

/-- The views of the valuations that satisfy the store are what `R` says, and with each of them the
variables that are allocated from the counter on can have any values. -/
structure State.Ranges (c : Nat) (view : Valuation → α) (R : α → Prop) (s : State) : Prop where
  counter : s.counter = c
  acyclic : s.store.Acyclic
  sound : ∀ σ : Valuation, σ.Satisfies s.store → R (view σ)
  complete : ∀ a, R a → ∀ f : Nat → Term, ∃ σ : Valuation,
    σ.Satisfies s.store ∧ view σ = a ∧ ∀ n ≥ c, σ (.fresh n) = f n

/-- The value of the term is what `f` makes of the view. -/
def Term.SeenAs (view : Valuation → α) (f : α → Term) (t : Term) : Prop :=
  ∀ σ : Valuation, t.mapVars σ = f (view σ)

/-- The one state that ranges over `R`, or none when `R` holds of nothing. -/
inductive Outcome (c : Nat) (view : Valuation → α) (R : α → Prop) : Option State → Prop
  | reached {b : State} (h : b.Ranges c view R) : Outcome c view R (some b)
  | void (h : ∀ a, ¬ R a) : Outcome c view R none

/-! ## Looking at something else -/

/-- A state ranges over what is computed from what it ranges over. -/
theorem State.Ranges.map (h : s.Ranges c view R) (g : α → β) {view' : Valuation → β} {R' : β → Prop}
    (hview : ∀ σ, view' σ = g (view σ)) (hsound : ∀ a, R a → R' (g a))
    (hcomplete : ∀ b, R' b → ∃ a, R a ∧ g a = b) : s.Ranges c view' R' := by
  refine ⟨h.counter, h.acyclic, fun σ hσ => ?_, fun b hb f => ?_⟩
  · rw [hview]
    exact hsound _ (h.sound σ hσ)
  · obtain ⟨a, ha, rfl⟩ := hcomplete b hb
    obtain ⟨σ, hσ, rfl, hf⟩ := h.complete a ha f
    exact ⟨σ, hσ, hview σ, hf⟩

theorem State.Ranges.congr {R' : α → Prop} (h : s.Ranges c view R) (hR : ∀ a, R a ↔ R' a) :
    s.Ranges c view R' :=
  h.map id (fun _ => rfl) (fun a ha => (hR a).1 ha) fun a ha => ⟨a, (hR a).2 ha, rfl⟩

theorem Outcome.map {o : Option State} (h : Outcome c view R o) (g : α → β) {view' : Valuation → β}
    {R' : β → Prop} (hview : ∀ σ, view' σ = g (view σ)) (hsound : ∀ a, R a → R' (g a))
    (hcomplete : ∀ b, R' b → ∃ a, R a ∧ g a = b) : Outcome c view' R' o := by
  cases h with
  | reached h => exact .reached (h.map g hview hsound hcomplete)
  | void h =>
    refine .void fun b hb => ?_
    obtain ⟨a, ha, -⟩ := hcomplete b hb
    exact h a ha

/-- There is no state where there is nothing to range over. -/
theorem Outcome.eq_none {o : Option State} (h : Outcome c view R o) (hR : ∀ a, ¬ R a) : o = none := by
  cases h with
  | reached h => exact absurd (h.sound _ h.acyclic.solution_satisfies) (hR _)
  | void => rfl

/-- There is a state where there is something to range over. -/
theorem Outcome.exists_eq_some {o : Option State} (h : Outcome c view R o) {a : α} (ha : R a) :
    ∃ b : State, o = some b ∧ b.Ranges c view R := by
  cases h with
  | reached h => exact ⟨_, rfl, h⟩
  | void h => exact absurd ha (h a)

theorem Outcome.acyclic {o : Option State} (h : Outcome c view R o) :
    ∀ b ∈ o, b.store.Acyclic := by
  rintro b rfl
  cases h with
  | reached h => exact h.acyclic

/-! ## Basic goals -/

/-- The search starts in a state of which nothing is known. -/
theorem State.ranges_empty : State.empty.Ranges 0 (fun _ => ()) fun _ => True := by
  refine ⟨rfl, Store.acyclic_empty, fun _ _ => trivial, fun _ _ f => ?_⟩
  have hinj : Function.Injective Var.fresh := fun _ _ => Var.fresh_injective
  exact ⟨Function.extend Var.fresh f Term.var, nofun, rfl, fun n _ => hinj.extend_apply f _ n⟩

/-- A variable that has been allocated can have any value. -/
theorem State.Ranges.fresh (h : s.Ranges c view R) (hc : c < counterMax) :
    ∃ b, s.fresh = .ok (.fresh c, b) ∧
      b.Ranges (c + 1) (fun σ => (σ (.fresh c), view σ)) fun a => R a.2 := by
  obtain ⟨store, counter⟩ := s
  obtain rfl : c = counter := h.counter.symm
  refine ⟨_, if_pos hc, rfl, h.acyclic, h.sound, fun (t, a) ha f => ?_⟩
  obtain ⟨σ, hσ, rfl, hf⟩ := h.complete a ha fun n => if n = c then t else f n
  refine ⟨σ, hσ, ?_, fun n hn => ?_⟩
  · rw [hf c (Nat.le_refl c), if_pos rfl]
  · rw [hf n (Nat.le_of_succ_le hn), if_neg (by omega)]

theorem Term.seenAs_pair {U V : α → Term} (hu : (ρ.instantiate u).SeenAs view U)
    (hv : (ρ.instantiate v).SeenAs view V) :
    (ρ.instantiate (.pair u v)).SeenAs view fun a => .pair (U a) (V a) := by
  intro σ
  have hpair : ρ.instantiate (.pair u v) = .pair (ρ.instantiate u) (ρ.instantiate v) :=
    Term.mapVars_pair ..
  rw [hpair, Term.mapVars_pair, hu, hv]

/-- An equation restricts what a state ranges over to the views in which it holds. -/
theorem State.Ranges.exists_gives_eq {U V : α → Term} (h : s.Ranges c view R)
    (hu : (ρ.instantiate u).SeenAs view U) (hv : (ρ.instantiate v).SeenAs view V) :
    ∃ o : Option State, (Goal.eq u v).Gives p n ρ s (ofList o.toList) ∧
      Outcome c view (fun a => R a ∧ U a = V a) o := by
  obtain ⟨o, ho, hunify⟩ := h.acyclic.unify_eq (ρ.instantiate u) (ρ.instantiate v)
  have hrun : Closure.run p (n + 1) ⟨.eq u v, ρ⟩ s = _ := Closure.run_eq
  rw [ho] at hrun
  cases hunify with
  | @solved r hr =>
    refine ⟨some { s with store := r }, ⟨[], hrun⟩, .reached ⟨h.counter, hr.acyclic, fun σ hσ => ?_,
      fun a ⟨ha, heq⟩ f => ?_⟩⟩
    · obtain ⟨hs, heq⟩ := (hr.satisfies_iff σ).1 hσ
      rw [hu, hv] at heq
      exact ⟨h.sound σ hs, heq⟩
    · obtain ⟨σ, hσ, rfl, hf⟩ := h.complete a ha f
      rw [← hu, ← hv] at heq
      exact ⟨σ, (hr.satisfies_iff σ).2 ⟨hσ, heq⟩, rfl, hf⟩
  | unsolvable hno =>
    refine ⟨none, ⟨[], hrun⟩, .void fun a ⟨ha, heq⟩ => ?_⟩
    obtain ⟨σ, hσ, rfl, -⟩ := h.complete a ha fun _ => .nil
    rw [← hu, ← hv] at heq
    exact hno σ hσ heq

/-- An equation that has a variable of its own restricts what a state ranges over to the views in which
it holds for some value of the variable. -/
theorem State.Ranges.exists_gives_fresh_eq {x : Var} {U V : Term × α → Term} (h : s.Ranges c view R)
    (hc : c < counterMax)
    (hu : (Scope.instantiate ((x, .var (.fresh c)) :: ρ) u).SeenAs
      (fun σ => (σ (.fresh c), view σ)) U)
    (hv : (Scope.instantiate ((x, .var (.fresh c)) :: ρ) v).SeenAs
      (fun σ => (σ (.fresh c), view σ)) V) :
    ∃ o : Option State, (Goal.fresh x (.eq u v)).Gives p n ρ s (ofList o.toList) ∧
      Outcome (c + 1) view (fun a => R a ∧ ∃ t, U (t, a) = V (t, a)) o := by
  obtain ⟨b, hfresh, hb⟩ := h.fresh hc
  obtain ⟨o, hgives, ho⟩ := hb.exists_gives_eq hu hv
  refine ⟨o, Goal.gives_fresh_iff.2 ⟨_, b, hfresh, hgives⟩, ho.map Prod.snd (fun _ => rfl) ?_ ?_⟩
  · exact fun (t, a) ⟨ha, heq⟩ => ⟨ha, t, heq⟩
  · exact fun a ⟨ha, t, heq⟩ => ⟨(t, a), ⟨ha, heq⟩, rfl⟩

/-! ## What is shown -/

/-- A term is shown in canonical form as the term that has its values for instances. -/
theorem State.Ranges.reify_eq {R : Term → Prop} (h : s.Ranges c (fun σ => t.mapVars σ) R)
    (hR : ∀ a, R a ↔ ∃ τ, u.mapVars τ = a) : s.reify t = .ok u.canonical := by
  obtain ⟨τ, hτ⟩ := (hR _).1 (h.sound _ h.acyclic.solution_satisfies)
  obtain ⟨σ, hσ, hview, -⟩ := h.complete u ((hR u).2 ⟨.var, u.mapVars_var_self⟩) fun _ => .nil
  have hback : (t.mapVars s.store.solution).mapVars σ = u := by
    rw [h.acyclic.mapVars_solution hσ, hview]
  rw [State.reify, h.acyclic.reify_eq, Term.canonical_eq_of_instances hback hτ]

/-- In the state that there may be, a term is shown as the term that has its values for instances, if
there is one. -/
theorem Outcome.forall₂_reify {R : Term → Prop} {o : Option State}
    (h : Outcome c (fun σ => t.mapVars σ) R o) (shown : Option Term)
    (hR : ∀ a, R a ↔ ∃ u ∈ shown, ∃ τ, u.mapVars τ = a) :
    List.Forall₂ (fun b u => b.reify t = .ok u) o.toList (shown.map Term.canonical).toList := by
  cases shown with
  | none =>
    rw [h.eq_none fun a ha => by obtain ⟨u, hu, -⟩ := (hR a).1 ha; cases hu]
    exact .nil
  | some u =>
    have hu : ∀ a, R a ↔ ∃ τ, u.mapVars τ = a := by simpa using hR
    obtain ⟨b, rfl, hb⟩ := h.exists_eq_some ((hu u).2 ⟨.var, u.mapVars_var_self⟩)
    exact .cons (hb.reify_eq hu) .nil

theorem Outcome.forall₂_reify_ground {R : Term → Prop} {o : Option State}
    (h : Outcome c (fun σ => t.mapVars σ) R o) (hu : u.Ground) (hR : ∀ a, R a ↔ a = u) :
    List.Forall₂ (fun b u => b.reify t = .ok u) o.toList [u] := by
  have hshown := h.forall₂_reify (some u) fun a => by simp [hR, hu.mapVars_eq, eq_comm]
  rwa [Option.map_some, hu.canonical_eq] at hshown

end Relational
