import Relational.Limit
import Relational.Term.Printer

/-!
# Events

What a search logs: that a traced relation has been applied, and that a run has finished.
-/

namespace Relational

/-- An entry of the log. -/
inductive Event where
  /-- A traced relation has been applied. The arguments stand beside the parameters, as they are shown
  in the state of the application, each one on its own. -/
  | applied (relation : String) (args : List (Var × Term))
  /-- A run has finished, with so many answers, after it has forced so many suspensions itself. -/
  | finished (limit : Limit) (produced forced : Nat)
deriving DecidableEq

namespace Event

/-- What the event belongs to. -/
def target : Event → String
  | applied .. => "micro_kanren::relation"
  | finished .. => "micro_kanren::run"

/-- How much detail a log has to have to hold the event. -/
def level : Event → String
  | applied .. => "TRACE"
  | finished .. => "DEBUG"

/-- What has happened. -/
def message : Event → String
  | applied .. => "apply"
  | finished .. => "goal run finished"

/-- The particulars of the event, each with its key. -/
def fields : Event → List (String × String)
  | applied relation args =>
    ("relation", "\"" ++ relation ++ "\"") :: args.map fun (x, t) => (x.name, t.display)
  | finished limit produced forced =>
    [("limit", limit.display), ("produced", produced.repr), ("forced", forced.repr)]

/-- The event as a line of a log. -/
def line (e : Event) : String :=
  e.level ++ " " ++ e.target ++ ": " ++
    " ".intercalate (e.message :: e.fields.map fun (key, text) => key ++ "=" ++ text)

end Event

end Relational
