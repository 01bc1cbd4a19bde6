/-!
# Faults

Why a computation has no result at all, which is not the same as a failing goal: a goal that fails
has a result, the empty stream.
-/

namespace Relational

/-- The largest counter of a state, the largest 64-bit word. -/
def counterMax : Nat := 18446744073709551615

/-- Why a computation has no result. -/
inductive Fault where
  /-- A variable would have to be allocated at a counter after the largest one. -/
  | overflow
  /-- The computation has spent what it was allowed to spend. What it may spend is chosen so that
  only a computation without end does so. -/
  | unending
deriving DecidableEq

/-- The text of a fault. -/
def Fault.message : Fault → String
  | overflow => "attempt to add with overflow"
  | unending => "the computation has no end"

end Relational
