import Relational.Goal.Apply

/-!
# Runs

A run asks a goal for states, starting from the empty one, and reports in the log how it has ended.
`Goal.first` asks for states without a report.
-/

namespace Relational.Goal

variable (p : Program) (rounds : Nat)

/-- The states in which a goal holds, up to a limit. -/
def run (limit : Limit) (g : Goal) : Logged (List State) := do
  let s ← g.answers p rounds .empty
  let (states, forced) ← s.collect (Closure.run p rounds) rounds limit
  Logged.log (.finished limit states.length forced)
  pure states

/-- The first `n` states in which a goal holds. -/
def first (n : Nat) (g : Goal) : Logged (List State) := do
  let s ← g.answers p rounds .empty
  s.take (Closure.run p rounds) rounds n

end Relational.Goal
