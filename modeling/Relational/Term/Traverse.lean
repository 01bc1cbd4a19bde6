import Relational.Fault
import Relational.Term.Basic

/-!
# Passes over the variables of a term

Three passes from left to right that ask a function about every variable, where the function may
have no answer: a fold, a search that ends at the first hit, and a copy with something in place of
the variables. What stands in for a variable at the end of a list may go on with that list, so the
copy hands the items before the variable to the function. `rebuildOnto_eq` says when that makes no
difference, and `rebuildOnto_pair` that the copy then is made component by component.
-/

namespace Relational.Term

/-- Folds `f` over the variables of a term from left to right. -/
def foldVars {β : Type} (f : β → Var → Except Fault β) (b : β) : Term → Except Fault β
  | nil | sym _ => .ok b
  | var x => f b x
  | pair t u =>
    match foldVars f b t with
    | .error e => .error e
    | .ok b => foldVars f b u

theorem foldVars_pair {β : Type} (f : β → Var → Except Fault β) (b : β) (t u : Term) :
    foldVars f b (pair t u) = foldVars f b t >>= fun b => foldVars f b u := by
  rw [foldVars]
  cases foldVars f b t <;> rfl

/-- A fold is a fold over the list of the variables. -/
theorem foldVars_eq {β : Type} (f : β → Var → Except Fault β) (b : β) (t : Term) :
    foldVars f b t = t.vars.foldlM f b := by
  induction t generalizing b with
  | nil | sym => rfl
  | var x => simp [foldVars]
  | pair t u iht ihu => simp [foldVars_pair, iht, ihu]

/-- Whether the test holds of some variable of a term; later variables are not tested. -/
def searchVars (test : Var → Except Fault Bool) : Term → Except Fault Bool
  | nil | sym _ => .ok false
  | var x => test x
  | pair t u =>
    match searchVars test t with
    | .ok false => searchVars test u
    | found => found

/-- The list of the items, of which the last is given first, ending in a copy of a term. `f items x`
gives the list that has a variable `x` behind `items`. -/
def rebuildOnto (f : List Term → Var → Except Fault Term) (items : List Term) :
    Term → Except Fault Term
  | nil => .ok (ofReversed items nil)
  | sym s => .ok (ofReversed items (sym s))
  | var x => f items x
  | pair t u =>
    match rebuildOnto f [] t with
    | .error e => .error e
    | .ok t => rebuildOnto f (t :: items) u

section
variable {f : List Term → Var → Except Fault Term}
  (hf : ∀ items x, f items x = ofReversed items <$> f [] x)
include hf

/-- Where the function puts one term in place of each variable, the items before a term are put before
its copy. -/
theorem rebuildOnto_eq (items : List Term) (t : Term) :
    rebuildOnto f items t = ofReversed items <$> rebuildOnto f [] t := by
  induction t generalizing items with
  | nil | sym => rfl
  | var x => exact hf items x
  | pair t u _ ihu =>
    rw [rebuildOnto, rebuildOnto]
    match rebuildOnto f [] t with
    | .error e => rfl
    | .ok t =>
      simp only [ihu (t :: items), ihu [t]]
      cases rebuildOnto f [] u <;> rfl

/-- Where the function puts one term in place of each variable, a pair is copied component by
component. -/
theorem rebuildOnto_pair (t u : Term) :
    rebuildOnto f [] (pair t u) =
      rebuildOnto f [] t >>= fun t => rebuildOnto f [] u >>= fun u => .ok (pair t u) := by
  rw [rebuildOnto]
  match rebuildOnto f [] t with
  | .error e => rfl
  | .ok t =>
    simp only [rebuildOnto_eq hf [t] u]
    cases rebuildOnto f [] u <;> rfl

end

end Relational.Term
