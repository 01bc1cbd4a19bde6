import Relational.Store.Basic
import Relational.Term.Printer

/-!
# The written forms of stores

A store is written as its bindings, the newest one first: `(,x . a) (,y . ,x)`. The other form, for
inspection, looks like a record: `{x: a, y: ,x}`.
-/

namespace Relational.Store

/-- The bindings as dotted pairs, separated by blanks; nothing for a store without bindings. -/
def display (s : Store) : String :=
  " ".intercalate (s.bindings.map fun (x, t) => "(" ++ x.display ++ " . " ++ t.display ++ ")")

/-- The bindings as a record, with the bare names of the variables. -/
def inspect (s : Store) : String :=
  "\x7b" ++ ", ".intercalate (s.bindings.map fun (x, t) => x.name ++ ": " ++ t.display) ++ "\x7d"

end Relational.Store
