import Mathlib.Logic.Function.Basic
import Relational.Goal.Program
import Relational.Goal.Scope
import Relational.Proofs.Term.Valuation

/-!
# Names in goals

The names in a goal are those of variables or bound by `fresh` and by the parameters of a relation.
`Goal.free` lists the variables that a goal mentions, and a scope denotes the values of its names when
what they stand for has these values (`Scope.Denotes`). This is handed on to the parts of a goal, to
the body of a fresh name and, when a call has an argument for every parameter, to the body of a
relation.
-/

namespace Relational

/-! ## Variables of goals -/

/-- The variables that a goal mentions: the names that nothing binds. -/
def Goal.free : Goal → List Var
  | .succeed | .fail => []
  | .eq u v => u.vars ++ v.vars
  | .disj g h | .conj g h => g.free ++ h.free
  | .fresh x g => g.free.filter (· ≠ x)
  | .call _ args => args.flatMap Term.vars
  | .ifte g yes no => g.free ++ yes.free ++ no.free
  | .once g => g.free

/-- The variables that the body of a relation mentions beside the parameters. -/
def Definition.free (d : Definition) : List Var := d.body.free.filter (· ∉ d.params)

/-- Every call has an argument for every parameter. -/
def Goal.Saturated (p : Program) : Goal → Prop
  | .succeed | .fail | .eq .. => True
  | .disj g h | .conj g h => g.Saturated p ∧ h.Saturated p
  | .fresh _ g | .once g => g.Saturated p
  | .call r args => (p.definition r).params.length ≤ args.length
  | .ifte g yes no => g.Saturated p ∧ yes.Saturated p ∧ no.Saturated p

/-! ## Scopes of arguments -/

namespace Scope

variable {params : List Var} {args : List Term} {x : Var}

theorem lookup_ofArgs_map (params : List Var) (args : List Term) (f : Term → Term) (x : Var) :
    (ofArgs params (args.map f)).lookup x = ((ofArgs params args).lookup x).map f := by
  rw [ofArgs, ofArgs, List.zip_map_right, ← List.map_reverse]
  induction (params.zip args).reverse with
  | nil => rfl
  | cons entry rest ih =>
    obtain ⟨y, t⟩ := entry
    rw [List.map_cons, Prod.map_apply, id, List.lookup_cons, List.lookup_cons]
    cases x == y with
    | true => rfl
    | false => exact ih

/-- When there are enough arguments, a name stands for an argument or is no parameter. -/
theorem lookup_ofArgs (h : params.length ≤ args.length) (x : Var) :
    (∃ t ∈ args, (ofArgs params args).lookup x = some t) ∨
      (x ∉ params ∧ (ofArgs params args).lookup x = none) := by
  cases hx : (ofArgs params args).lookup x with
  | some t =>
    obtain ⟨newer, older, hentries, -⟩ := List.lookup_eq_some_iff.1 hx
    have hmem : (x, t) ∈ params.zip args := by
      rw [← List.mem_reverse, show (params.zip args).reverse = _ from hentries]
      simp
    exact .inl ⟨t, (List.of_mem_zip hmem).2, rfl⟩
  | none =>
    refine .inr ⟨fun hmem => ?_, rfl⟩
    rw [← List.map_fst_zip h] at hmem
    obtain ⟨entry, hentry, rfl⟩ := List.mem_map.1 hmem
    have hne := List.lookup_eq_none_iff.1 hx entry (List.mem_reverse.2 hentry)
    simp at hne

theorem value_nil (x : Var) : value [] x = .var x := rfl

/-- The innermost binder of a name counts. -/
theorem value_cons (ρ : Scope) (x : Var) (t : Term) :
    value ((x, t) :: ρ) = Function.update ρ.value x t := by
  funext y
  by_cases hy : y = x
  · rw [hy, Function.update_self, value, List.lookup_cons_self, Option.getD_some]
  · rw [Function.update_of_ne hy, value, List.lookup_cons, beq_eq_false_iff_ne.2 hy]
    rfl

end Scope

/-! ## Values of names -/

/-- The values of the names in the body of a relation, where the parameters have the given values. -/
def Valuation.enter (σ : Valuation) (params : List Var) (values : List Term) : Valuation :=
  fun x => ((Scope.ofArgs params values).lookup x).getD (σ x)

variable {p : Program} {g h : Goal} {ρ : Scope} {σ τ δ : Valuation}

/-- The names of the goal stand for terms of which the values are `δ`. -/
def Scope.Denotes (ρ : Scope) (τ δ : Valuation) (g : Goal) : Prop :=
  ∀ x ∈ g.free, (ρ.value x).mapVars τ = δ x

namespace Scope.Denotes

theorem instantiate {t : Term} (hρ : ρ.Denotes τ δ g) (ht : ∀ x ∈ t.vars, x ∈ g.free) :
    (ρ.instantiate t).mapVars τ = t.mapVars δ := by
  rw [Scope.instantiate, Term.mapVars_mapVars]
  exact Term.mapVars_congr fun x hx => hρ x (ht x hx)

theorem left (hρ : ρ.Denotes τ δ (.disj g h)) : ρ.Denotes τ δ g :=
  fun x hx => hρ x (List.mem_append_left _ hx)

theorem right (hρ : ρ.Denotes τ δ (.disj g h)) : ρ.Denotes τ δ h :=
  fun x hx => hρ x (List.mem_append_right _ hx)

/-- A fresh name has the value of its variable. -/
theorem fresh {x y : Var} (hρ : ρ.Denotes τ δ (.fresh x g)) :
    Scope.Denotes ((x, .var y) :: ρ) τ (Function.update δ x (τ y)) g := by
  intro z hz
  rw [value_cons]
  by_cases hzx : z = x
  · rw [hzx, Function.update_self, Function.update_self, Term.mapVars_var]
  · rw [Function.update_of_ne hzx, Function.update_of_ne hzx]
    exact hρ z (List.mem_filter.2 ⟨hz, by simpa using hzx⟩)

/-- A parameter has the value of its argument. -/
theorem call {r : RelName} {args : List Term} (hg : (Goal.call r args).Saturated p)
    (hσ : ∀ x ∈ (p.definition r).free, τ x = σ x) (hρ : ρ.Denotes τ δ (.call r args)) :
    Scope.Denotes (.ofArgs (p.definition r).params (args.map ρ.instantiate)) τ
      (σ.enter (p.definition r).params (args.map (·.mapVars δ))) (p.definition r).body := by
  intro z hz
  rw [value, Valuation.enter, lookup_ofArgs_map, lookup_ofArgs_map]
  rcases lookup_ofArgs hg z with ⟨t, ht, hlookup⟩ | ⟨hparam, hlookup⟩
  · rw [hlookup]
    exact hρ.instantiate fun x hx => List.mem_flatMap.2 ⟨t, ht, hx⟩
  · rw [hlookup]
    exact hσ z (List.mem_filter.2 ⟨hz, by simpa using hparam⟩)

end Scope.Denotes

end Relational
