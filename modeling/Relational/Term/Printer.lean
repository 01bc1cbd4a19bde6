import Relational.Term.Basic

/-!
# The written form of terms

The empty list is written `()`, a symbol as its text, a variable as a comma and its name, and a list
as its items in parentheses, separated by blanks, with a dot before a tail that is not the empty
list.
-/

namespace Relational

/-- A variable is marked by a comma. -/
def Var.display (x : Var) : String := "," ++ x.name

namespace Term

/-- `out`, followed by the written form of a term. `inList` tells that the term follows the items of
a list that is still open, so that a pair goes on with the list and all else ends it. -/
def write (inList : Bool) (out : String) : Term → String
  | nil => if inList then out ++ ")" else out ++ "()"
  | sym s => if inList then out ++ " . " ++ s ++ ")" else out ++ s
  | var x => if inList then out ++ " . " ++ x.display ++ ")" else out ++ x.display
  | pair a b => write true (write false (out ++ if inList then " " else "(") a) b

/-- The written form of a term. -/
def display (t : Term) : String := write false "" t

theorem write_eq (inList : Bool) (out : String) (t : Term) :
    write inList out t = out ++ write inList "" t := by
  induction t generalizing inList out with
  | nil | sym | var => cases inList <;> simp [write, String.append_assoc]
  | pair a b iha ihb =>
    rw [write, write, ihb, iha, ihb true (write false _ a), iha false ("" ++ _)]
    simp [String.append_assoc]

end Term

end Relational
