/-!
# Limits

How many answers a search is asked for.
-/

namespace Relational

/-- How many answers are wanted. -/
inductive Limit where
  | all
  | atMost (n : Nat)
deriving DecidableEq

namespace Limit

/-- A negative number asks for all answers. -/
def ofInt : Int → Limit
  | .ofNat n => atMost n
  | .negSucc _ => all

/-- No number asks for all answers. -/
def ofOption : Option Nat → Limit
  | some n => atMost n
  | none => all

/-- Enough answers have been produced. -/
def isReached (produced : Nat) : Limit → Bool
  | all => false
  | atMost n => n ≤ produced

/-- The text of a limit. -/
def display : Limit → String
  | all => "All"
  | atMost n => "AtMost(" ++ n.repr ++ ")"

end Limit

end Relational
