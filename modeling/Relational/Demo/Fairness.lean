import Relational.Query
import Relational.Text.Bracketed

/-!
# Demonstration: fairness

Pulls answers out of searches of which one branch never answers. What the searches log stands among
the lines, where it was logged.
-/

namespace Relational.Demo.Fairness

open Term (named)

/-- What a computation logs, as lines, and behind it the lines that it gives. -/
def transcript (c : Logged (List String)) : Except Fault (List String) :=
  match c with
  | .value lines events => .ok (events.map Event.line ++ lines)
  | .fault e => .error e

/-- Five answers of two branches, next to a branch that never answers. -/
def besideDiverging (rounds : Nat) : Logged (List String) := do
  let choice := Goal.disjAll [.call .nevero [], .eq (named "q") (.sym "left"), .call .alwayso [],
    .eq (named "q") (.sym "right")]
  let answers ← (Query.one ⟨"q"⟩ [choice]).run [] rounds (.atMost 5)
  pure ["five answers next to a diverging branch: " ++ Text.bracketed (answers.map Term.display)]

/-- Four of the lists that hold an item. -/
def listsWith (rounds : Nat) : Logged (List String) := do
  let holds := Goal.call .membero [.sym "x", named "q"]
  let answers ← (Query.one ⟨"q"⟩ [holds]).first [] rounds 4
  pure (answers.map Term.display)

/-- Three states of a branch that always answers, next to one that never does. -/
def neverOrAlways (rounds : Nat) : Logged (List String) := do
  let states ← (Goal.disj (.call .nevero []) (.call .alwayso [])).run [] rounds (.atMost 3)
  pure ["states: " ++ Text.bracketed (states.map State.inspect)]

/-- The lines of the demonstration. -/
def lines (rounds : Nat) : Except Fault (List String) := do
  let answers ← transcript (besideDiverging rounds)
  let lists ← transcript (listsWith rounds)
  let states ← transcript (neverOrAlways rounds)
  return answers ++ lists ++ states

end Relational.Demo.Fairness
