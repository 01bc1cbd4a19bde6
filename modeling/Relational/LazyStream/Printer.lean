import Relational.LazyStream.Basic

/-!
# The written form of streams

A stream is written as its mature elements in parentheses, with an ellipsis where it is suspended.
-/

namespace Relational.LazyStream

variable {κ α : Type}

/-- The elements in parentheses, an ellipsis standing for a suspension. -/
def display (item : α → String) (s : LazyStream κ α) : String :=
  "(" ++ " ".intercalate (go [] s) ++ ")"
where
  /-- The texts of the elements and of the suspension, behind those given, the last one first. -/
  go (texts : List String) : LazyStream κ α → List String
    | empty => texts.reverse
    | cons a d => go (item a :: texts) d
    | _ => ("..." :: texts).reverse

end Relational.LazyStream
