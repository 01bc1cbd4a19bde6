import Relational.Goal.Program
import Relational.Goal.Scope
import Relational.LazyStream.Pull
import Relational.State
import Relational.Store.Unify

/-!
# Applying goals

A goal applied to a state gives the stream of the states in which it holds. A disjunction appends the
streams of its two goals, in turns; a conjunction applies its second goal to every state of the first
one's stream. A call is suspended at once: the body of the relation is only looked at when the
suspension is forced, so that a relation may call itself.

What a suspension stands for is a goal with its scope (`Closure`). Only the soft cut and `once` force
suspensions while they are applied, to learn whether there is an answer; `Closure.run` says for how
many rounds.
-/

namespace Relational

/-- A goal whose names have a meaning. -/
structure Closure where
  goal : Goal
  scope : Scope
deriving DecidableEq

/-- The answers of a goal, as far as they have been computed. -/
abbrev Answers : Type := LazyStream Closure State

/-- The arguments of an application beside the parameters, as they are shown in the state, each one on
its own. -/
def State.reifyArgs (s : State) (params : List Var) (args : List Term) :
    Except Fault (List (Var × Term)) :=
  (params.zip args).mapM fun (x, t) => do return (x, ← s.reify t)

/-- Applies a relation to arguments: the application is logged if the relation is traced, and the
body is left to be forced. -/
def Definition.apply (d : Definition) (args : List Term) (s : State) : Logged Answers := do
  if let some name := d.traced then
    Logged.log (.applied name (← Logged.ofExcept (s.reifyArgs d.params args)))
  pure (.delay ⟨d.body, .ofArgs d.params args⟩ s)

namespace Goal

/-- The answers of a goal whose names have the meaning `ρ`, from a state. `mature` forces a stream
until it is at an answer or at its end. -/
def apply (p : Program) (mature : Answers → Logged Answers) :
    Goal → Scope → State → Logged Answers
  | succeed, _, s => pure (.singleton s)
  | fail, _, _ => pure .empty
  | eq u v, ρ, s => do
    match ← Logged.ofExcept (s.store.unify (ρ.instantiate u) (ρ.instantiate v)) with
    | some store => pure (.singleton { s with store })
    | none => pure .empty
  | disj g h, ρ, s => do
    let gs ← g.apply p mature ρ s
    let hs ← h.apply p mature ρ s
    pure (gs.append hs)
  | conj g h, ρ, s => do
    let gs ← g.apply p mature ρ s
    gs.appendMap (h.apply p mature ρ) ⟨h, ρ⟩
  | fresh x g, ρ, s => do
    let (y, s) ← Logged.ofExcept s.fresh
    g.apply p mature ((x, .var y) :: ρ) s
  | call r args, ρ, s => (p.definition r).apply (args.map ρ.instantiate) s
  | ifte g yes no, ρ, s => do
    let gs ← g.apply p mature ρ s
    let gs ← mature gs
    if gs.isEmpty then no.apply p mature ρ s
    else gs.appendMap (yes.apply p mature ρ) ⟨yes, ρ⟩
  | once g, ρ, s => do
    let gs ← g.apply p mature ρ s
    match ← mature gs with
    | .cons a _ => pure (.singleton a)
    | _ => pure .empty

end Goal

/-- The answers of a goal with its scope, from a state. Goals that have to know whether there is an
answer may force so many rounds, and one round less at each depth to which they are nested. -/
def Closure.run (p : Program) : Nat → Closure → State → Logged Answers
  | 0, _, _ => .fault .unending
  | n + 1, c, s => c.goal.apply p (LazyStream.mature (Closure.run p n) n) c.scope s

/-- The answers of a goal without a scope. -/
def Goal.answers (p : Program) (rounds : Nat) (g : Goal) (s : State) : Logged Answers :=
  Closure.run p rounds ⟨g, []⟩ s

end Relational
