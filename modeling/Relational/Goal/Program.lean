import Relational.Goal.Basic

/-!
# Programs

A program defines relations, which may call themselves and each other. The relations on lists and the
two goals without end have the same meaning in every program.
-/

namespace Relational

open Term (named)

/-- What a relation means. -/
structure Definition where
  params : List Var
  /-- What has to hold of the parameters. -/
  body : Goal
  /-- The name under which applications are logged, when they are. -/
  traced : Option String
deriving DecidableEq

/-- The relations that are defined by name. -/
abbrev Program : Type := List (String × Definition)

namespace Definition

/-- A relation of which applications are not logged. -/
def plain (params : List String) (body : Goal) : Definition := ⟨params.map Var.mk, body, none⟩

/-- A relation that holds of nothing. -/
def void : Definition := plain [] .fail

/-- The pair `p` has the components `a` and `d`. -/
def conso : Definition := plain ["a", "d", "p"] (.eq (.pair (named "a") (named "d")) (named "p"))

/-- The pair `p` has the first component `a`. -/
def caro : Definition :=
  plain ["p", "a"] (.fresh ⟨"d"⟩ (.eq (.pair (named "a") (named "d")) (named "p")))

/-- The pair `p` has the second component `d`. -/
def cdro : Definition :=
  plain ["p", "d"] (.fresh ⟨"a"⟩ (.eq (.pair (named "a") (named "d")) (named "p")))

/-- The list `l` is empty. -/
def nullo : Definition := plain ["l"] (.eq .nil (named "l"))

/-- The list `l` begins with `x`, or `x` is an item of what follows its first item. -/
def membero : Definition :=
  plain ["x", "l"]
    (.disj (.call .caro [named "l", named "x"])
      (.fresh ⟨"d"⟩
        (.conj (.call .cdro [named "l", named "d"]) (.call .membero [named "x", named "d"]))))

/-- The list `l` is empty and `out` is `s`, or both `l` and `out` begin with the same item, and `out`
goes on with what follows in `l` and then with `s`. -/
def appendo : Definition :=
  plain ["l", "s", "out"]
    (.disj (.conj (.call .nullo [named "l"]) (.eq (named "s") (named "out")))
      (.freshAll [⟨"a"⟩, ⟨"d"⟩, ⟨"res"⟩]
        (.conjAll [.call .conso [named "a", named "d", named "l"],
          .call .conso [named "a", named "res", named "out"],
          .call .appendo [named "d", named "s", named "res"]])))

/-- Asks the same again. -/
def nevero : Definition := plain [] (.call .nevero [])

/-- Succeeds, and asks the same again. -/
def alwayso : Definition := plain [] (.disj .succeed (.call .alwayso []))

end Definition

/-- What a relation means in a program. A relation without a definition holds of nothing. -/
def Program.definition (p : Program) : RelName → Definition
  | .conso => .conso
  | .caro => .caro
  | .cdro => .cdro
  | .nullo => .nullo
  | .membero => .membero
  | .appendo => .appendo
  | .nevero => .nevero
  | .alwayso => .alwayso
  | .defined name => (p.lookup name).getD .void

end Relational
