import Relational.Query
import Relational.Text.Bracketed

/-!
# Demonstration: three kinds of choice

Asks which of two lists holds an item, once with a disjunction, which gives every answer, and once
with a choice that commits to the first line that has an answer; and asks for one member of a list.
-/

namespace Relational.Demo.Conds

open Term (named)

/-- `r` tells in which of the lists `s1` and `s2` the item `x` is: in both, in one, or in two. -/
def whiche : Definition :=
  .plain ["x", "s1", "s2", "r"]
    (.conde
      [[.call .membero [named "x", named "s1"], .call .membero [named "x", named "s2"],
          .eq (named "r") (.sym "both")],
        [.call .membero [named "x", named "s1"], .eq (named "r") (.sym "one")],
        [.call .membero [named "x", named "s2"], .eq (named "r") (.sym "two")]])

/-- Like `whiche`, but with the first answer's line alone. -/
def whicha : Definition :=
  .plain ["x", "s1", "s2", "r"]
    (.conda
      [⟨.conjAll [.call .membero [named "x", named "s1"], .call .membero [named "x", named "s2"],
          .eq (named "r") (.sym "both")], []⟩,
        ⟨.conjAll [.call .membero [named "x", named "s1"], .eq (named "r") (.sym "one")], []⟩,
        ⟨.conjAll [.call .membero [named "x", named "s2"], .eq (named "r") (.sym "two")], []⟩])

/-- `x` is the member of `s` that is found first. -/
def firstMember : Definition :=
  .plain ["x", "s"] (.condu [⟨.call .membero [named "x", named "s"], []⟩])

/-- The relations of the demonstration. -/
def program : Program := [("whiche", whiche), ("whicha", whicha), ("first_member", firstMember)]

/-- The symbols of some numbers, as a list. -/
def numbers (ns : List Nat) : Term := .list (ns.map fun n => .sym n.repr)

/-- All answers to one call, of which the last argument is asked for, behind a caption. -/
def line (rounds : Nat) (caption : String) (goal : Goal) : Logged String := do
  let answers ← (Query.one ⟨"q"⟩ [goal]).run program rounds .all
  pure (caption ++ " " ++ Text.bracketed (answers.map Term.display))

/-- The lines of the demonstration. -/
def lines (rounds : Nat) : Logged (List String) := do
  let lists := [.sym "3", numbers [1, 2, 3], numbers [3, 4, 5], named "q"]
  let e ← line rounds "Which list contains 3 using conde?" (.call (.defined "whiche") lists)
  let a ← line rounds "Which list contains 3 using conda?" (.call (.defined "whicha") lists)
  let u ← line rounds "First member using condu:"
    (.call (.defined "first_member") [named "q", .list [.sym "a", .sym "b", .sym "c"]])
  pure [e, a, u]

end Relational.Demo.Conds
