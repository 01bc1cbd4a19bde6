import Relational.Term.Basic

/-!
# Goals

A goal says what has to hold of the variables of a state. The goals here are syntax; what the search
does with them is in `Relational.Goal.Apply`. Variables of a goal are names: `fresh` binds one in its
body, a definition binds its parameters, and a name that nothing binds is the variable of that name.
-/

namespace Relational

/-- What a goal can call: a relation on lists, a goal without end, or a relation that a program
defines. -/
inductive RelName where
  /-- The third term is the pair of the first two. -/
  | conso
  /-- The second term is the first component of the first one. -/
  | caro
  /-- The second term is the second component of the first one. -/
  | cdro
  /-- The term is the empty list. -/
  | nullo
  /-- The first term is an item of the second one. -/
  | membero
  /-- The third term is the first one followed by the second one. -/
  | appendo
  /-- Neither succeeds nor fails. -/
  | nevero
  /-- Succeeds again and again. -/
  | alwayso
  /-- The relation that the program defines under a name. -/
  | defined (name : String)
deriving DecidableEq

/-- What has to hold. -/
inductive Goal where
  | succeed
  | fail
  /-- The two terms are equal. -/
  | eq (u v : Term)
  | disj (g h : Goal)
  | conj (g h : Goal)
  /-- The goal holds of some term, which it calls `x`. -/
  | fresh (x : Var) (g : Goal)
  | call (r : RelName) (args : List Term)
  /-- Soft cut: `g` and `yes`, unless `g` has no answer, and then `no`. -/
  | ifte (g yes no : Goal)
  /-- The first answer alone. -/
  | once (g : Goal)
deriving DecidableEq

namespace Goal

instance : Inhabited Goal := ⟨fail⟩

/-- One goal of several, grouped to the right; none of no goals holds. -/
def disjAll : List Goal → Goal
  | [] => fail
  | [g] => g
  | g :: goals => disj g (disjAll goals)

/-- All of several goals, grouped to the right. -/
def conjAll : List Goal → Goal
  | [] => succeed
  | [g] => g
  | g :: goals => conj g (conjAll goals)

/-- The goal holds of some terms. Of two equal names the later one counts. -/
def freshAll (xs : List Var) (g : Goal) : Goal := xs.foldr fresh g

/-- Any line, of which all goals hold. -/
def conde (lines : List (List Goal)) : Goal := disjAll (lines.map conjAll)

/-- A line of a choice that commits: the goal that decides, and the goals that follow. -/
structure Line where
  head : Goal
  rest : List Goal

/-- The first line whose head has an answer, with all its answers. The last line needs no decision. -/
def conda : List Line → Goal
  | [] => fail
  | [l] => conjAll (l.head :: l.rest)
  | l :: lines => ifte l.head (conjAll l.rest) (conda lines)

/-- The first line whose head has an answer, with the first answer of the head alone. -/
def condu (lines : List Line) : Goal := conda (lines.map fun l => { l with head := once l.head })

/-- The variables that a goal mentions or binds. -/
def vars : Goal → List Var
  | succeed | fail => []
  | eq u v => u.vars ++ v.vars
  | disj g h | conj g h => g.vars ++ h.vars
  | fresh x g => x :: g.vars
  | call _ args => args.flatMap Term.vars
  | ifte g yes no => g.vars ++ yes.vars ++ no.vars
  | once g => g.vars

end Goal

end Relational
