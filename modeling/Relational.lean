import Relational.Text.Blank
import Relational.Text.Bracketed
import Relational.Fault
import Relational.Term.Basic
import Relational.Term.Printer
import Relational.Term.Lexeme
import Relational.Term.Reader
import Relational.Term.Descent
import Relational.Term.Traverse
import Relational.Store.Basic
import Relational.Store.Unify
import Relational.Store.Reify
import Relational.Store.Printer
import Relational.State
import Relational.Limit
import Relational.Event
import Relational.Logged
import Relational.LazyStream.Basic
import Relational.LazyStream.Pull
import Relational.LazyStream.Printer
import Relational.Goal.Basic
import Relational.Goal.Scope
import Relational.Goal.Program
import Relational.Goal.Apply
import Relational.Run
import Relational.Query
import Relational.Demo.Conds
import Relational.Demo.Fairness
import Relational.Proofs.Term.Valuation
import Relational.Proofs.Term.Splitting
import Relational.Proofs.Term.Grammar
import Relational.Proofs.Store.Acyclic
import Relational.Proofs.Store.Solution
import Relational.Proofs.Store.Extension
import Relational.Proofs.Store.MostGeneral
import Relational.Proofs.Store.Equations
import Relational.Proofs.Store.Canonical
import Relational.Proofs.Store.Reordering
import Relational.Proofs.Store.Termination
import Relational.Proofs.LazyStream.Steps
import Relational.Proofs.LazyStream.Turns
import Relational.Proofs.LazyStream.Mapping
import Relational.Proofs.LazyStream.Safety
import Relational.Proofs.LazyStream.Pending
import Relational.Proofs.Goal.Pure
import Relational.Proofs.Goal.Naming
import Relational.Proofs.Goal.Unfolding
import Relational.Proofs.Goal.Freshness
import Relational.Proofs.Goal.Positions
import Relational.Proofs.Goal.Derivation
import Relational.Proofs.Goal.Meaning
import Relational.Proofs.Goal.Renaming
import Relational.Proofs.Goal.Commutation
import Relational.Proofs.Goal.Branch
import Relational.Proofs.Goal.Simulation
import Relational.Proofs.Goal.Growth
import Relational.Proofs.Goal.Allocation
import Relational.Proofs.Term.RoundTrip
import Relational.Proofs.Goal.Guardedness
import Relational.Proofs.Store.Agreement
import Relational.Proofs.Store.Rebinding
import Relational.Proofs.LazyStream.Ends
import Relational.Proofs.LazyStream.Budget
import Relational.Proofs.Goal.Budget
import Relational.Proofs.LazyStream.RoundRobin
import Relational.Proofs.LazyStream.Pairing
import Relational.Proofs.Store.BindingOrder
import Relational.Proofs.Store.Relevance
import Relational.Proofs.Store.Resolved
import Relational.Proofs.Store.Variants
import Relational.Proofs.LazyStream.Forcing
import Relational.Proofs.Goal.Choice
import Relational.Proofs.LazyStream.Pulling
import Relational.Proofs.Goal.Runs
import Relational.Proofs.LazyStream.Exhaustion
import Relational.Proofs.Goal.Cost
import Relational.Proofs.Goal.Rearrangement
import Relational.Proofs.Term.Places
import Relational.Proofs.Term.Errors
import Relational.Proofs.Term.Descent
import Relational.Proofs.LazyStream.Muting
import Relational.Proofs.Goal.Tracing
import Relational.Proofs.Goal.Ranges
import Relational.Proofs.LazyStream.Yielding
import Relational.Proofs.Goal.ListRelations
import Relational.Proofs.Goal.QueryAnswers
import Relational.Proofs.Goal.Members
import Relational.Proofs.Goal.Concatenation
