import Relational.Proofs.Goal.Pure
import Relational.Proofs.LazyStream.Mapping
import Relational.Proofs.Store.Equations

/-!
# Unfoldings

An unfolding of a goal says which side of every disjunction is taken, and goes into the body of every
call; there are no others than finite ones. It leaves a list of equations to be solved and a number of
variables to be allocated, and both do not depend on the store from which the goal is applied
(`Unfolding.equations`, `Unfolding.allocated`). An unfolding reaches a state when the equations are
solved in it (`Unfolding.Reaches`).
-/

namespace Relational

/-- A choice of one side in every disjunction of a goal and of the bodies of the relations it calls. -/
inductive Unfolding (p : Program) : Goal → Type
  | succeed : Unfolding p .succeed
  | eq {u v : Term} : Unfolding p (.eq u v)
  | left {g h : Goal} (a : Unfolding p g) : Unfolding p (.disj g h)
  | right {g h : Goal} (a : Unfolding p h) : Unfolding p (.disj g h)
  | conj {g h : Goal} (a : Unfolding p g) (b : Unfolding p h) : Unfolding p (.conj g h)
  | fresh {x : Var} {g : Goal} (a : Unfolding p g) : Unfolding p (.fresh x g)
  | call {r : RelName} {args : List Term} (a : Unfolding p (p.definition r).body) :
    Unfolding p (.call r args)

namespace Unfolding

variable {p : Program} {g h : Goal} {ρ : Scope} {s b : State}

/-- How many variables are allocated. -/
def allocated {g : Goal} : Unfolding p g → Nat
  | succeed | eq => 0
  | left a | right a | call a => a.allocated
  | conj a b => a.allocated + b.allocated
  | fresh a => a.allocated + 1

/-- The equations that have to be solved, when the names of the goal have the meaning `ρ` and
variables are allocated from the counter `c` on. -/
def equations {g : Goal} : Unfolding p g → Scope → Nat → Equations
  | succeed, _, _ => []
  | @eq _ u v, ρ, _ => [(ρ.instantiate u, ρ.instantiate v)]
  | left a, ρ, c | right a, ρ, c => a.equations ρ c
  | conj a b, ρ, c => a.equations ρ c ++ b.equations ρ (c + a.allocated)
  | @fresh _ x _ a, ρ, c => a.equations ((x, .var (.fresh c)) :: ρ) (c + 1)
  | @call _ r args a, ρ, c =>
    a.equations (.ofArgs (p.definition r).params (args.map ρ.instantiate)) c

/-- The state in which all equations of the unfolding have been solved. -/
structure Reaches (a : Unfolding p g) (ρ : Scope) (s b : State) : Prop where
  store : s.store.unifyAll (a.equations ρ s.counter) = .ok (some b.store)
  counter : b.counter = s.counter + a.allocated

theorem reaches_succeed : (succeed : Unfolding p _).Reaches ρ s b ↔ b = s := by
  constructor
  · rintro ⟨hstore, hcounter⟩
    cases b
    cases hstore
    cases hcounter
    rfl
  · rintro rfl
    exact ⟨rfl, rfl⟩

theorem reaches_eq {u v : Term} : (eq : Unfolding p (.eq u v)).Reaches ρ s b ↔
    ∃ r, s.store.unify (ρ.instantiate u) (ρ.instantiate v) = .ok (some r) ∧
      b = { s with store := r } := by
  have hunify : ∀ r, s.store.unifyAll ((eq : Unfolding p (.eq u v)).equations ρ s.counter) =
      .ok (some r) ↔ s.store.unify (ρ.instantiate u) (ρ.instantiate v) = .ok (some r) := by
    intro r
    simp only [equations, Store.unifyAll]
    cases s.store.unify (ρ.instantiate u) (ρ.instantiate v) with
    | error e => rfl
    | ok o => cases o <;> rfl
  constructor
  · rintro ⟨hstore, hcounter⟩
    cases b
    cases hcounter
    exact ⟨_, (hunify _).1 hstore, rfl⟩
  · rintro ⟨r, hr, rfl⟩
    exact ⟨(hunify r).2 hr, rfl⟩

theorem reaches_left {a : Unfolding p g} :
    (left a : Unfolding p (.disj g h)).Reaches ρ s b ↔ a.Reaches ρ s b :=
  ⟨fun ⟨hstore, hcounter⟩ => ⟨hstore, hcounter⟩, fun ⟨hstore, hcounter⟩ => ⟨hstore, hcounter⟩⟩

theorem reaches_right {a : Unfolding p h} :
    (right a : Unfolding p (.disj g h)).Reaches ρ s b ↔ a.Reaches ρ s b :=
  ⟨fun ⟨hstore, hcounter⟩ => ⟨hstore, hcounter⟩, fun ⟨hstore, hcounter⟩ => ⟨hstore, hcounter⟩⟩

/-- The second goal of a conjunction goes on where the first one has come to. -/
theorem reaches_conj {a : Unfolding p g} {a' : Unfolding p h} :
    (conj a a').Reaches ρ s b ↔ ∃ m, a.Reaches ρ s m ∧ a'.Reaches ρ m b := by
  constructor
  · rintro ⟨hstore, hcounter⟩
    rw [equations, Store.unifyAll_append] at hstore
    match hm : s.store.unifyAll (a.equations ρ s.counter) with
    | .ok (some r) =>
      rw [hm] at hstore
      refine ⟨⟨r, s.counter + a.allocated⟩, ⟨hm, rfl⟩, hstore, ?_⟩
      rw [hcounter, allocated, Nat.add_assoc]
    | .ok none | .error _ => rw [hm] at hstore; cases hstore
  · rintro ⟨m, ⟨hm, hmc⟩, hstore, hcounter⟩
    refine ⟨?_, by rw [hcounter, hmc, allocated, Nat.add_assoc]⟩
    rw [equations, Store.unifyAll_append, hm, ← hmc]
    exact hstore

theorem reaches_fresh {x : Var} {a : Unfolding p g} :
    (fresh a : Unfolding p (.fresh x g)).Reaches ρ s b ↔
      a.Reaches ((x, .var (.fresh s.counter)) :: ρ) { s with counter := s.counter + 1 } b := by
  have hcount : s.counter + (a.allocated + 1) = s.counter + 1 + a.allocated := by omega
  constructor
  · rintro ⟨hstore, hcounter⟩
    exact ⟨hstore, hcounter.trans hcount⟩
  · rintro ⟨hstore, hcounter⟩
    exact ⟨hstore, hcounter.trans hcount.symm⟩

theorem reaches_call {r : RelName} {args : List Term} {a : Unfolding p (p.definition r).body} :
    (call a : Unfolding p (.call r args)).Reaches ρ s b ↔
      a.Reaches (.ofArgs (p.definition r).params (args.map ρ.instantiate)) s b :=
  ⟨fun ⟨hstore, hcounter⟩ => ⟨hstore, hcounter⟩, fun ⟨hstore, hcounter⟩ => ⟨hstore, hcounter⟩⟩

end Unfolding

end Relational
