import Relational.Term.Basic

/-!
# Scopes

What the names of a goal stand for. The innermost binder of a name counts, and all names of a term are
replaced at once.
-/

namespace Relational

/-- The terms that names stand for, the innermost binder first. -/
abbrev Scope : Type := List (Var × Term)

namespace Scope

/-- What a name stands for. A name that is not bound is the variable of that name. -/
def value (ρ : Scope) (x : Var) : Term := (ρ.lookup x).getD (.var x)

/-- A term with what its names stand for in their places. -/
def instantiate (ρ : Scope) (t : Term) : Term := t.mapVars ρ.value

/-- Parameters stand for arguments. Of two equal parameters the later one counts. -/
def ofArgs (params : List Var) (args : List Term) : Scope := (params.zip args).reverse

end Scope

end Relational
