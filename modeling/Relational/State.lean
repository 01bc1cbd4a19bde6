import Relational.Store.Printer
import Relational.Store.Reify

/-!
# Search states

What a goal starts from and what it ends with: the bindings that have been made, and the counter
from which variables are allocated.
-/

namespace Relational

/-- A state of the search. -/
structure State where
  store : Store
  /-- The counter at which the next variable is allocated. -/
  counter : Nat
deriving DecidableEq

namespace State

/-- The state in which every search starts. -/
def empty : State := ⟨.empty, 0⟩

instance : Inhabited State := ⟨empty⟩

/-- Allocates a variable, unless the counter is the largest one. -/
def fresh (s : State) : Except Fault (Var × State) :=
  if s.counter < counterMax then .ok (.fresh s.counter, { s with counter := s.counter + 1 })
  else .error .overflow

/-- A term as it is shown in a state. -/
def reify (s : State) (t : Term) : Except Fault Term := s.store.reify t

/-- A variable as it is shown in each of the states. -/
def reifyEach (x : Var) (states : List State) : Except Fault (List Term) :=
  states.mapM fun s => s.reify (.var x)

/-- The written form of a state: the bindings, or the empty list when there are none, and the
counter. -/
def display (s : State) : String :=
  "(" ++ (if s.store.isEmpty then "()" else s.store.display) ++ " . " ++ s.counter.repr ++ ")"

/-- The written form of a state for inspection. -/
def inspect (s : State) : String := "(" ++ s.store.inspect ++ " . " ++ s.counter.repr ++ ")"

end State

end Relational
