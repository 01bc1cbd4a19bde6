import Relational.Store.Basic

/-!
# Unification

`Store.unify` extends a store by the bindings that make two terms equal, and by no more than it has
to. Pairs are unified component by component, the first ones first, and the second ones in the store
that comes out of that.
-/

namespace Relational

/-- Unifies two terms component by component as far as both are pairs, first components first, and by
`meet` where one of them is not. -/
def Term.unifyBy (meet : Store → Term → Term → Except Fault (Option Store)) :
    Store → Term → Term → Except Fault (Option Store)
  | s, .pair a b, .pair c d =>
    match Term.unifyBy meet s a c with
    | .ok (some s) => Term.unifyBy meet s b d
    | refused => refused
  | s, u, v => meet s u v

namespace Store

/-- Unifies what two terms stand for, when pairs are met behind variables fewer than `n` times along a
path. Of two different open variables the one of the left term is bound. -/
def meetWithin : Nat → Store → Term → Term → Except Fault (Option Store)
  | 0, _, _, _ => .error .unending
  | n + 1, s, u, v =>
    match s.walk u, s.walk v with
    | .error e, _ | _, .error e => .error e
    | .ok (.var x), .ok b => if b = .var x then .ok (some s) else s.extend x b
    | .ok a, .ok (.var y) => s.extend y a
    | .ok (.pair a b), .ok (.pair c d) => Term.unifyBy (meetWithin n) s (.pair a b) (.pair c d)
    | .ok a, .ok b => .ok (if a = b then some s else none)

/-- How often unification can meet pairs behind variables along one path, and once more for the end.
Each time it has followed a binding of one of the two terms, and along a path none is followed twice;
it can bind no other variables than those that the store and the terms mention, which are not more
than these are large. -/
def unifyBound (s : Store) (u v : Term) : Nat := 2 * (s.load + u.size + v.size) + 1

/-- The store, extended so that two terms become equal, or nothing when they cannot. -/
def unify (s : Store) (u v : Term) : Except Fault (Option Store) :=
  Term.unifyBy (meetWithin (s.unifyBound u v)) s u v

end Store

end Relational
