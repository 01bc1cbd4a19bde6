import Mathlib.Logic.Relation
import Relational.Proofs.Goal.Pure
import Relational.Proofs.LazyStream.Pending
import Relational.Run

/-!
# Branches of the search

The search for a goal is a tree, and a branch of it is a way down from the root: a state, the goals
that are still to be solved in it, and the variables that have been allocated on the way. One step
of a branch solves or takes apart the next goal (`Branch.Step`). What the search does, it does on
branches (`Goal.steps_meets`, `Goal.run_meets`): a state that it emits is the end of one
(`EmitsAt.visits`), and where the counter overflows, the next goal of one is to allocate a variable
(`Overflows.exists_branch`). So what every step keeps holds of all that the search emits,
however it takes turns, and whatever it cuts. A store only ever grows along a branch
(`HasBranch.continues`).
-/

namespace Relational

open Relation

variable {p : Program} {g : Goal} {s b : State}

/-- A branch of the search, as far as it goes. -/
structure Branch where
  /-- The goals that are still to be solved, the next one first. -/
  todo : List Closure
  state : State
  /-- The variables that have been allocated on the way, the last one first. -/
  allocated : List Var

namespace Branch

/-- One step down a branch. Which answers a soft cut or `once` leaves out is not told apart here: the
condition is followed to all its answers, and the other goal is followed in any case. -/
inductive Step (p : Program) : Branch → Branch → Prop
  | succeed {ρ : Scope} {todo : List Closure} {s : State} {xs : List Var} :
    Step p ⟨⟨.succeed, ρ⟩ :: todo, s, xs⟩ ⟨todo, s, xs⟩
  | eq {u v : Term} {ρ : Scope} {todo : List Closure} {s : State} {xs : List Var} {r : Store}
    (h : s.store.unify (ρ.instantiate u) (ρ.instantiate v) = .ok (some r)) :
    Step p ⟨⟨.eq u v, ρ⟩ :: todo, s, xs⟩ ⟨todo, { s with store := r }, xs⟩
  | left {g h : Goal} {ρ : Scope} {todo : List Closure} {s : State} {xs : List Var} :
    Step p ⟨⟨.disj g h, ρ⟩ :: todo, s, xs⟩ ⟨⟨g, ρ⟩ :: todo, s, xs⟩
  | right {g h : Goal} {ρ : Scope} {todo : List Closure} {s : State} {xs : List Var} :
    Step p ⟨⟨.disj g h, ρ⟩ :: todo, s, xs⟩ ⟨⟨h, ρ⟩ :: todo, s, xs⟩
  | conj {g h : Goal} {ρ : Scope} {todo : List Closure} {s : State} {xs : List Var} :
    Step p ⟨⟨.conj g h, ρ⟩ :: todo, s, xs⟩ ⟨⟨g, ρ⟩ :: ⟨h, ρ⟩ :: todo, s, xs⟩
  | fresh {x y : Var} {g : Goal} {ρ : Scope} {todo : List Closure} {s m : State} {xs : List Var}
    (h : s.fresh = .ok (y, m)) :
    Step p ⟨⟨.fresh x g, ρ⟩ :: todo, s, xs⟩ ⟨⟨g, (x, .var y) :: ρ⟩ :: todo, m, y :: xs⟩
  | call {r : RelName} {args : List Term} {ρ : Scope} {todo : List Closure} {s : State}
    {xs : List Var} :
    Step p ⟨⟨.call r args, ρ⟩ :: todo, s, xs⟩
      ⟨⟨(p.definition r).body, .ofArgs (p.definition r).params (args.map ρ.instantiate)⟩ :: todo,
        s, xs⟩
  | condition {g yes no : Goal} {ρ : Scope} {todo : List Closure} {s : State} {xs : List Var} :
    Step p ⟨⟨.ifte g yes no, ρ⟩ :: todo, s, xs⟩ ⟨⟨g, ρ⟩ :: ⟨yes, ρ⟩ :: todo, s, xs⟩
  | otherwise {g yes no : Goal} {ρ : Scope} {todo : List Closure} {s : State} {xs : List Var} :
    Step p ⟨⟨.ifte g yes no, ρ⟩ :: todo, s, xs⟩ ⟨⟨no, ρ⟩ :: todo, s, xs⟩
  | once {g : Goal} {ρ : Scope} {todo : List Closure} {s : State} {xs : List Var} :
    Step p ⟨⟨.once g, ρ⟩ :: todo, s, xs⟩ ⟨⟨g, ρ⟩ :: todo, s, xs⟩

/-- The next thing on the branch is to allocate a variable. -/
def Allocates (a : Branch) : Prop := ∃ x g ρ todo, a.todo = ⟨.fresh x g, ρ⟩ :: todo

end Branch

/-- Steps lead down from the goal, which is to be solved in the state, to the branch. -/
def Goal.HasBranch (p : Program) (g : Goal) (s : State) (a : Branch) : Prop :=
  ReflTransGen (Branch.Step p) ⟨[⟨g, []⟩], s, []⟩ a

/-! ## Growing stores -/

/-- The second state may come after the first one: its store is acyclic and extends the store of the
first one, and its counter has not gone back. -/
structure State.Continues (s b : State) : Prop where
  acyclic : b.store.Acyclic
  grows : s.store.Extends b.store
  counter : s.counter ≤ b.counter

namespace State.Continues

theorem refl (hs : s.store.Acyclic) : s.Continues s := ⟨hs, .refl, Nat.le_refl _⟩

theorem trans {m : State} (h : s.Continues m) (h' : m.Continues b) : s.Continues b :=
  ⟨h'.acyclic, h.grows.trans h'.grows, Nat.le_trans h.counter h'.counter⟩

end State.Continues

theorem Branch.Step.continues {a a' : Branch} (h : Step p a a') (ha : a.state.store.Acyclic) :
    a.state.Continues a'.state := by
  cases h with
  | succeed | left | right | conj | call | condition | otherwise | once => exact .refl ha
  | @eq u v ρ _ s _ r h =>
    obtain ⟨o, ho, hunify⟩ := ha.unify_eq (ρ.instantiate u) (ρ.instantiate v)
    rw [h] at ho
    cases ho
    cases hunify with
    | solved hr => exact ⟨hr.acyclic, hr.grows, Nat.le_refl _⟩
  | fresh h =>
    obtain ⟨rfl, rfl⟩ := State.fresh_eq_ok h
    exact ⟨ha, .refl, Nat.le_succ _⟩

/-- Along a branch the store stays acyclic and grows. -/
theorem Goal.HasBranch.continues {a : Branch} (h : g.HasBranch p s a) (hs : s.store.Acyclic) :
    s.Continues a.state := by
  induction h with
  | refl => exact .refl hs
  | tail _ hstep ih => exact ih.trans (hstep.continues ih.acyclic)

/-! ## What the search does -/

/-- Some branch has come to the state with the given goals to be solved. -/
def Goal.Visits (p : Program) (g : Goal) (s : State) (todo : List Closure) (b : State) : Prop :=
  ∃ xs, g.HasBranch p s ⟨todo, b, xs⟩

/-- An overflow has its cause on a branch. -/
def Goal.Explains (p : Program) (g : Goal) (s : State) (e : Fault) : Prop :=
  e = .overflow → ∃ a, g.HasBranch p s a ∧ a.Allocates ∧ a.state.fresh = .error .overflow

namespace Goal

theorem Visits.next {todo todo' : List Closure} {m : State}
    (h : g.Visits p s todo b) (hstep : ∀ xs, ∃ ys, Branch.Step p ⟨todo, b, xs⟩ ⟨todo', m, ys⟩) :
    g.Visits p s todo' m := by
  obtain ⟨xs, hbranch⟩ := h
  obtain ⟨ys, hstep⟩ := hstep xs
  exact ⟨ys, hbranch.tail hstep⟩

theorem Visits.acyclic {todo : List Closure} (h : g.Visits p s todo b) (hs : s.store.Acyclic) :
    b.store.Acyclic := by
  obtain ⟨xs, hbranch⟩ := h
  exact (hbranch.continues hs).acyclic

theorem explains_unending : g.Explains p s .unending := nofun

/-- What a goal does from a state that branches visit with it is done on branches. -/
theorem apply_keeps {mature : Answers → Logged Answers} (hs : s.store.Acyclic)
    (hmature : ∀ todo st, st.Pending (g.Visits p s) todo →
      (mature st).Meets (g.Explains p s) (·.Pending (g.Visits p s) todo)) (h : Goal) :
    ∀ ρ, LazyStream.Keeps (g.Explains p s) (g.Visits p s) ⟨h, ρ⟩ (h.apply p mature ρ) := by
  induction h with
  | succeed => exact fun ρ todo b hb => ⟨hb.next fun xs => ⟨xs, .succeed⟩, trivial⟩
  | fail => exact fun ρ todo b hb => trivial
  | eq u v =>
    intro ρ todo b hb
    obtain ⟨o, ho, -⟩ := (hb.acyclic hs).unify_eq (ρ.instantiate u) (ρ.instantiate v)
    simp only [apply, ho, Logged.ofExcept, Logged.value_bind, Logged.after_nil]
    cases o with
    | none => trivial
    | some r => exact ⟨hb.next fun xs => ⟨xs, .eq ho⟩, trivial⟩
  | disj h h' ih ih' =>
    intro ρ todo b hb
    refine (ih ρ todo b (hb.next fun xs => ⟨xs, .left⟩)).bind fun gs hgs => ?_
    exact (ih' ρ todo b (hb.next fun xs => ⟨xs, .right⟩)).bind fun hs hhs => hgs.append hhs
  | conj h h' ih ih' =>
    intro ρ todo b hb
    refine (ih ρ _ b (hb.next fun xs => ⟨xs, .conj⟩)).bind fun gs hgs => ?_
    exact hgs.appendMap (ih' ρ)
  | fresh x h ih =>
    intro ρ todo b hb
    cases hf : b.fresh with
    | error e =>
      have happly : (Goal.fresh x h).apply p mature ρ b = .fault e := by
        simp only [apply, hf, Logged.ofExcept, Logged.fault_bind]
      obtain ⟨xs, hbranch⟩ := hb
      rw [happly]
      rintro rfl
      exact ⟨_, hbranch, ⟨x, h, ρ, todo, rfl⟩, hf⟩
    | ok v =>
      obtain ⟨y, m⟩ := v
      have happly : (Goal.fresh x h).apply p mature ρ b = h.apply p mature ((x, .var y) :: ρ) m := by
        simp only [apply, hf, Logged.ofExcept, Logged.value_bind, Logged.after_nil]
      rw [happly]
      exact ih _ todo m (hb.next fun xs => ⟨y :: xs, .fresh hf⟩)
  | call r args =>
    intro ρ todo b hb
    obtain ⟨events, happly⟩ :=
      (p.definition r).exists_apply (hb.acyclic hs) (args.map ρ.instantiate)
    rw [apply, happly]
    exact hb.next fun xs => ⟨xs, .call⟩
  | ifte h yes no ih ihyes ihno =>
    intro ρ todo b hb
    refine (ih ρ _ b (hb.next fun xs => ⟨xs, .condition⟩)).bind fun gs hgs => ?_
    refine (hmature _ gs hgs).bind fun gs hgs => ?_
    split
    · exact ihno ρ todo b (hb.next fun xs => ⟨xs, .otherwise⟩)
    · exact hgs.appendMap (ihyes ρ)
  | once h ih =>
    intro ρ todo b hb
    refine (ih ρ todo b (hb.next fun xs => ⟨xs, .once⟩)).bind fun gs hgs => ?_
    refine (hmature _ gs hgs).bind fun gs hgs => ?_
    cases gs with
    | cons a d => exact ⟨hgs.1, trivial⟩
    | empty | delay | swap | bind => trivial

/-- What the search does with a goal that is suspended is done on branches. -/
theorem run_keeps (hs : s.store.Acyclic) (rounds : Nat) (c : Closure) :
    LazyStream.Keeps (g.Explains p s) (g.Visits p s) c (Closure.run p rounds c) := by
  induction rounds generalizing c with
  | zero => exact fun _ _ _ => explains_unending
  | succ n ih =>
    exact apply_keeps hs (fun todo st hst => hst.mature ih explains_unending n) c.goal c.scope

/-- The answers of a goal are those of its branches. -/
theorem answers_meets (hs : s.store.Acyclic) (rounds : Nat) :
    (g.answers p rounds s).Meets (g.Explains p s) (·.Pending (g.Visits p s) []) :=
  run_keeps hs rounds ⟨g, []⟩ [] s ⟨[], .refl⟩

/-- The states among the first steps of a goal are the ends of branches. -/
theorem steps_meets (hs : s.store.Acyclic) (rounds k : Nat) :
    (g.steps p rounds s k).Meets (g.Explains p s) fun steps =>
      ∀ b, .emit b ∈ steps → g.Visits p s [] b :=
  (answers_meets hs rounds).bind fun _ h => h.trace (run_keeps hs rounds) k

/-- A state that is emitted is the end of a branch. -/
theorem EmitsAt.visits {rounds k : Nat} (h : g.EmitsAt p rounds s k b) (hs : s.store.Acyclic) :
    g.Visits p s [] b := by
  obtain ⟨steps, events, hsteps, hk⟩ := h
  have hmeets := steps_meets (p := p) (g := g) hs rounds (k + 1)
  rw [hsteps] at hmeets
  exact hmeets b (List.mem_of_getElem? hk)

/-- Where the counter overflows, a branch has come to the allocation of a variable. -/
theorem Overflows.exists_branch {rounds : Nat} (h : g.Overflows p rounds s)
    (hs : s.store.Acyclic) :
    ∃ a, g.HasBranch p s a ∧ a.Allocates ∧ a.state.fresh = .error .overflow := by
  obtain ⟨k, hk⟩ := h
  have hmeets := steps_meets (p := p) (g := g) hs rounds k
  rw [hk] at hmeets
  exact hmeets rfl

/-- The states that a run gives are the ends of branches. -/
theorem run_meets (rounds : Nat) (limit : Limit) :
    (g.run p rounds limit).Meets (g.Explains p .empty) fun states =>
      ∀ b ∈ states, g.Visits p .empty [] b := by
  have hs : State.empty.store.Acyclic := Store.acyclic_empty
  refine (answers_meets hs rounds).bind fun answers h => ?_
  exact (h.collect (run_keeps hs rounds) explains_unending rounds limit).bind fun _ h => h

/-- The first states of a goal are the ends of branches. -/
theorem first_meets (rounds n : Nat) :
    (g.first p rounds n).Meets (g.Explains p .empty) fun states =>
      ∀ b ∈ states, g.Visits p .empty [] b := by
  have hs : State.empty.store.Acyclic := Store.acyclic_empty
  refine (answers_meets hs rounds).bind fun answers h => ?_
  exact h.take (run_keeps hs rounds) explains_unending rounds n

end Goal

end Relational
