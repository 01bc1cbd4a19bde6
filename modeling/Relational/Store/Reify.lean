import Relational.Store.Basic

/-!
# Reification

An answer is shown with all bindings applied. The variables that are still open then have canonical
names, the symbols `_.0`, `_.1`, … in the order of their first occurrence, so that two answers that
differ only in how their open variables are called look the same.
-/

namespace Relational

/-- The canonical name of the open variable of number `n`. -/
def reifiedName (n : Nat) : Term := .sym ("_." ++ n.repr)

namespace Store

/-- Binds the open variables of a term to canonical names, when there are at most `n` terms along a
path. -/
def nameOpenWithin : Nat → Store → Term → Except Fault Store
  | 0 => fun _ _ => .error .unending
  | n + 1 => Term.foldVars fun s x =>
    match s.lookup x with
    | none => .ok (s.push x (reifiedName s.size))
    | some t => nameOpenWithin n s t

/-- Binds every open variable of a term to its canonical name, from left to right. The numbers go on
from the number of bindings there are. A path may end at a name that is new, hence one term more. -/
def nameOpen (s : Store) (t : Term) : Except Fault Store := nameOpenWithin (s.pathBound + 1) s t

/-- The term as it is shown: all bindings are applied, and the variables that are still open have
their canonical names. -/
def reify (s : Store) (t : Term) : Except Fault Term := do
  let t ← s.walkStar t
  let names ← empty.nameOpen t
  names.walkStar t

end Store

end Relational
