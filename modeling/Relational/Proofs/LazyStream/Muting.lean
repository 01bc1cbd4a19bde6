import Relational.Proofs.LazyStream.Pending

/-!
# Logs without some applications

A computation of the search has a log beside its outcome, and nothing of what it does later depends on
the log. So when some applications are not logged (`Event.Muted`), computations still have the same
outcomes, one after the other, with logs that differ in these applications alone (`Logged.Muted.bind`).
Where this is so for all functions of a stream, it is so when the stream is forced (`force_muted`),
and for the loops over it, which force the same suspensions (`mature_muted`, `trace_muted`,
`collect_muted`). The functions need not be alike for every element: what is pending in the stream tells
for which they have to be.
-/

namespace Relational

variable {α β σ κ : Type} {names : String → Prop}

/-- The second log is the first one without some of the applications that are logged under these
names. -/
inductive Event.Muted (names : String → Prop) : List Event → List Event → Prop
  | nil : Muted names [] []
  | keep {e : Event} {log log' : List Event} (h : Muted names log log') :
    Muted names (e :: log) (e :: log')
  | drop {name : String} {args : List (Var × Term)} {log log' : List Event} (hname : names name)
    (h : Muted names log log') : Muted names (.applied name args :: log) log'

namespace Event.Muted

theorem refl (log : List Event) : Event.Muted names log log := by
  induction log with
  | nil => exact .nil
  | cons e log ih => exact ih.keep

theorem append {log₁ log₁' log₂ log₂' : List Event} (h₁ : Event.Muted names log₁ log₁')
    (h₂ : Event.Muted names log₂ log₂') : Event.Muted names (log₁ ++ log₂) (log₁' ++ log₂') := by
  induction h₁ with
  | nil => exact h₂
  | keep _ ih => exact ih.keep
  | drop hname _ ih => exact ih.drop hname

theorem eq {log log' : List Event} (h : Event.Muted (fun _ => False) log log') : log = log' := by
  induction h with
  | nil => rfl
  | keep _ ih => rw [ih]
  | drop hname => exact hname.elim

end Event.Muted

namespace Logged

/-- Both computations have the same outcome, and the log of the second one is that of the first one
without some of the applications that are logged under these names. -/
inductive Muted (names : String → Prop) : Logged α → Logged α → Prop
  | value (a : α) {log log' : List Event} (h : Event.Muted names log log') :
    Muted names (.value a log) (.value a log')
  | fault (e : Fault) : Muted names (.fault e) (.fault e)

namespace Muted

variable {F : Fault → Prop} {Q : α → Prop} {c c' : Logged α} {f f' : α → Logged β}

theorem refl (c : Logged α) : c.Muted names c := by
  cases c with
  | value a log => exact .value a (.refl log)
  | fault e => exact .fault e

theorem toExcept_eq (h : c.Muted names c') : c.toExcept = c'.toExcept := by
  cases h <;> rfl

/-- Where no name is left out of the logs, the computations are the same. -/
theorem eq (h : c.Muted (fun _ => False) c') : c = c' := by
  cases h with
  | value a hlog => rw [hlog.eq]
  | fault e => rfl

/-- What comes next has to be alike only for the values that the first computation can have. -/
theorem bind (h : c.Muted names c') (hc : c.Meets F Q) (hf : ∀ a, Q a → (f a).Muted names (f' a)) :
    (c >>= f).Muted names (c' >>= f') := by
  cases h with
  | fault e => exact .fault e
  | value a hlog =>
    rw [value_bind, value_bind]
    have hfa := hf a hc
    -- a match on what comes next first, since its logs are indices of the relation
    generalize f a = d, f' a = d' at hfa
    cases hfa with
    | fault e => exact .fault e
    | value b hlog' => exact .value b (hlog.append hlog')

theorem map (h : c.Muted names c') (g : α → β) : (g <$> c).Muted names (g <$> c') := by
  cases h with
  | fault e => exact .refl _
  | value a hlog =>
    rw [map_value, map_value]
    exact .value (g a) hlog

/-- A loop comes to the same end when its rounds are alike for all that it can come to. -/
theorem iterate {step step' : σ → Logged (σ ⊕ β)} {I : σ → Prop}
    (hstep : ∀ s, I s → (step s).Muted names (step' s))
    (hkeep : ∀ s, I s → (step s).Meets F (Sum.elim I fun _ => True)) (n : Nat) {s : σ} (hs : I s) :
    (Logged.iterate step n s).Muted names (Logged.iterate step' n s) := by
  induction n generalizing s with
  | zero => exact .refl _
  | succ n ih =>
    rw [iterate_succ, iterate_succ]
    refine (hstep s hs).bind (hkeep s hs) fun next hnext => ?_
    cases next with
    | inl s => exact ih hnext
    | inr b => exact .refl _

end Muted

end Logged

namespace LazyStream

open Logged

variable {F : Fault → Prop} {R : List κ → α → Prop} {run run' : κ → α → Logged (LazyStream κ α)}
  {todo : List κ} {s : LazyStream κ α} {f : κ}

/-- Functions that are alike for every element that is pending in front of them make the same of all
elements. -/
theorem appendMap_muted {g g' : α → Logged (LazyStream κ α)} (hg : Keeps F R f g)
    (h : ∀ a, R (f :: todo) a → (g a).Muted names (g' a)) (hs : s.Pending R (f :: todo)) :
    (s.appendMap g f).Muted names (s.appendMap g' f) := by
  induction s using matureInduction with
  | empty => exact .refl _
  | cons a d ih =>
    rw [appendMap_cons, appendMap_cons]
    refine (h a hs.1).bind (hg todo a hs.1) fun part _ => ?_
    exact (ih hs.2).bind (hs.2.appendMap hg) fun rest _ => .refl _
  | suspended s hsus =>
    rw [appendMap_of_suspended g f hsus, appendMap_of_suspended g' f hsus]
    exact .refl _

section

variable (hrun : ∀ f, Keeps F R f (run f))
  (h : ∀ f todo a, R (f :: todo) a → (run f a).Muted names (run' f a))
include hrun h

theorem force_muted (hs : s.Pending R todo) : (s.force run).Muted names (s.force run') := by
  induction s generalizing todo with
  | empty | cons => exact .refl _
  | delay f a => exact h f todo a hs
  | swap t s _ ih => exact (ih hs.2).bind (hs.2.force hrun) fun s _ => .refl _
  | bind s f ih =>
    refine (ih hs).bind (hs.force hrun) fun s hs => ?_
    exact appendMap_muted (hrun f) (h f todo) hs

/-! ## Loops -/

theorem mature_muted (rounds : Nat) (hs : s.Pending R todo) :
    (s.mature run rounds).Muted names (s.mature run' rounds) := by
  refine .iterate (I := (·.Pending R todo)) (F := F) (fun s hs => ?_) (fun s hs => ?_) rounds hs
  · rw [matureRound, matureRound]
    split
    · exact .refl _
    · exact (force_muted hrun h hs).map _
  · rw [matureRound]
    split
    · trivial
    · exact (hs.force hrun).map fun _ h => h

theorem trace_muted (k : Nat) (hs : s.Pending R todo) :
    (s.trace run k).Muted names (s.trace run' k) := by
  induction k generalizing s with
  | zero =>
    rw [trace_zero, trace_zero]
    exact .refl _
  | succ k ih =>
    induction s using matureInduction with
    | empty =>
      rw [trace_empty, trace_empty]
      exact .refl _
    | cons a d =>
      rw [trace_cons, trace_cons]
      exact (ih hs.2).map _
    | suspended s hsus =>
      rw [trace_of_suspended run k hsus, trace_of_suspended run' k hsus]
      exact (force_muted hrun h hs).bind (hs.force hrun) fun s hs => (ih hs).map _

theorem collect_muted (rounds : Nat) (limit : Limit) (hs : s.Pending R todo) :
    (s.collect run rounds limit).Muted names (s.collect run' rounds limit) := by
  refine .iterate (I := fun c => c.rest.Pending R todo) (F := F) (fun c hc => ?_) (fun c hc => ?_)
    rounds hs
  all_goals obtain ⟨reversed, produced, forced, rest⟩ := c
  · rw [collectRound, collectRound]
    split
    · exact .refl _
    · cases rest with
      | empty | cons => exact .refl _
      | delay | swap | bind =>
        exact (force_muted hrun h hc).bind (hc.force hrun) fun s _ => .refl _
  · rw [collectRound]
    split
    · trivial
    · cases rest with
      | empty => trivial
      | cons a d => exact hc.2
      | delay | swap | bind => exact (hc.force hrun).bind fun s hs => hs

end

end LazyStream

end Relational
