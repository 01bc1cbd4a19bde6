/-!
# Bracketed sequences

How a sequence of texts is shown as one: in brackets, separated by a comma and a blank.
-/

namespace Relational.Text

/-- The texts in brackets, separated by a comma and a blank: `[a, b]`. -/
def bracketed (texts : List String) : String :=
  "[" ++ ", ".intercalate texts ++ "]"

end Relational.Text
