import Relational.Run

/-!
# Queries

A query asks for the values of variables. Its variable is the first one that is allocated, and each
answer is that variable as it is shown in a state in which the goals hold.
-/

namespace Relational

/-- A goal about a variable of which the values are asked for. -/
structure Query where
  /-- The variable, as the goal calls it. -/
  asked : Var
  goal : Goal

namespace Query

/-- Asks for the values of one variable for which all goals hold. -/
def one (x : Var) (goals : List Goal) : Query := ⟨x, .conjAll goals⟩

/-- The variables, of which those that have the name of a later one get names that are not used. -/
def unshadowed (used : List Var) : List Var → List Var
  | [] => []
  | x :: xs =>
    if x ∈ xs then Var.avoiding used :: unshadowed (Var.avoiding used :: used) xs
    else x :: unshadowed used xs

/-- Asks for the lists of the values of several variables for which all goals hold. Of two equal names
the goals mean the later one, and the list has the values of both; the list itself goes by a name
that is not used. -/
def many (xs : List Var) (goals : List Goal) : Query :=
  let used := xs ++ goals.flatMap Goal.vars
  let q := Var.avoiding used
  let xs := unshadowed (q :: used) xs
  ⟨q, .freshAll xs (.conjAll (.eq (.list (xs.map .var)) (.var q) :: goals))⟩

/-- The goal that allocates the variable. -/
def search (q : Query) : Goal := .fresh q.asked q.goal

/-- The answers that states give. -/
def answersIn (states : List State) : Except Fault (List Term) :=
  State.reifyEach (.fresh 0) states

/-- The answers to a query, up to a limit. -/
def run (p : Program) (rounds : Nat) (limit : Limit) (q : Query) : Logged (List Term) := do
  let states ← q.search.run p rounds limit
  Logged.ofExcept (answersIn states)

/-- The first `n` answers to a query. -/
def first (p : Program) (rounds : Nat) (n : Nat) (q : Query) : Logged (List Term) := do
  let states ← q.search.first p rounds n
  Logged.ofExcept (answersIn states)

end Query

end Relational
