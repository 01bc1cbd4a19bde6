import Relational.Proofs.Goal.Branch
import Relational.Proofs.LazyStream.Forcing
import Relational.Proofs.LazyStream.Muting

/-!
# Searches side by side

Beside the search for a goal runs another one, of the same goal with relations that may log less
(`Logged.Muted`) and with an allocator of its own (`Goal.applyWith`, `Closure.runWith`). As long as
the relations give the same streams, and the allocator does what is usual wherever a branch has come
to an allocation, both searches go through the same streams (`Goal.apply_muted`,
`Closure.run_muted`) and make the same steps (`Goal.steps_muted`). What the allocator would do in
other states is of no consequence, since there is no branch on which it is asked. With the usual
allocator, `State.fresh`, the other search is the search as it is defined (`Closure.runWith_fresh`).
-/

namespace Relational

open LazyStream

/-- Allocates a variable in a state, and gives it with the state behind. -/
abbrev Allocator : Type := State → Except Fault (Var × State)

/-- The answers of a goal whose names have the meaning `ρ`, when variables are allocated by `alloc`. A
goal that is not made of others allocates nothing. -/
def Goal.applyWith (alloc : Allocator) (p : Program) (mature : Answers → Logged Answers) :
    Goal → Scope → State → Logged Answers
  | disj g h, ρ, s => do
    let gs ← g.applyWith alloc p mature ρ s
    let hs ← h.applyWith alloc p mature ρ s
    pure (gs.append hs)
  | conj g h, ρ, s => do
    let gs ← g.applyWith alloc p mature ρ s
    gs.appendMap (h.applyWith alloc p mature ρ) ⟨h, ρ⟩
  | fresh x g, ρ, s => do
    let allocated ← Logged.ofExcept (alloc s)
    g.applyWith alloc p mature ((x, .var allocated.1) :: ρ) allocated.2
  | ifte g yes no, ρ, s => do
    let gs ← g.applyWith alloc p mature ρ s
    let gs ← mature gs
    if gs.isEmpty then no.applyWith alloc p mature ρ s
    else gs.appendMap (yes.applyWith alloc p mature ρ) ⟨yes, ρ⟩
  | once g, ρ, s => do
    let gs ← g.applyWith alloc p mature ρ s
    let gs ← mature gs
    pure gs.onlyFirst
  | g, ρ, s => g.apply p mature ρ s

/-- The answers of a goal with its scope, from a state, when variables are allocated by `alloc`. -/
def Closure.runWith (alloc : Allocator) (p : Program) : Nat → Closure → State → Logged Answers
  | 0, _, _ => .fault .unending
  | n + 1, c, s =>
    c.goal.applyWith alloc p (LazyStream.mature (Closure.runWith alloc p n) n) c.scope s

/-- The first `k` steps of a goal from a state, when variables are allocated by `alloc`. -/
def Goal.stepsWith (alloc : Allocator) (p : Program) (rounds : Nat) (g : Goal) (s : State) (k : Nat) :
    Logged (List (Step State)) :=
  Closure.runWith alloc p rounds ⟨g, []⟩ s >>= fun answers =>
    answers.trace (Closure.runWith alloc p rounds) k

/-! ## The usual allocator -/

section

variable {p : Program}

theorem Goal.applyWith_fresh (mature : Answers → Logged Answers) (g : Goal) :
    g.applyWith State.fresh p mature = g.apply p mature := by
  induction g with
  | succeed | fail | eq | call => rfl
  | disj g h ihg ihh | conj g h ihg ihh =>
    funext ρ s
    rw [applyWith, apply, ihg, ihh]
  | fresh x g ih =>
    funext ρ s
    simp only [applyWith, apply, ih]
  | ifte g yes no ihg ihyes ihno =>
    funext ρ s
    rw [applyWith, apply, ihg, ihyes, ihno]
  | once g ih =>
    funext ρ s
    rw [applyWith, apply, ih]
    refine bind_congr fun gs => bind_congr fun st => ?_
    cases st <;> rfl

theorem Closure.runWith_fresh (n : Nat) : Closure.runWith State.fresh p n = Closure.run p n := by
  induction n with
  | zero => rfl
  | succ n ih =>
    funext c s
    rw [runWith, run, ih, Goal.applyWith_fresh]

end

/-! ## Agreement -/

variable {p p' : Program} {alloc : Allocator} {names : String → Prop} {g : Goal} {s : State}

section

variable (hs : s.store.Acyclic)
  (halloc : ∀ a, g.HasBranch p s a → a.Allocates → alloc a.state = a.state.fresh)
  (hcall : ∀ r args b, b.store.Acyclic →
    ((p.definition r).apply args b).Muted names ((p'.definition r).apply args b))
include hs halloc hcall

/-- A goal gives the same stream in both searches, from a state that branches visit with it. -/
theorem Goal.apply_muted {mature mature' : Answers → Logged Answers}
    (hkeep : ∀ todo st, st.Pending (g.Visits p s) todo →
      (mature st).Meets (g.Explains p s) (·.Pending (g.Visits p s) todo))
    (hmature : ∀ todo st, st.Pending (g.Visits p s) todo → (mature st).Muted names (mature' st))
    (h : Goal) : ∀ ρ todo b, g.Visits p s (⟨h, ρ⟩ :: todo) b →
      (h.apply p mature ρ b).Muted names (h.applyWith alloc p' mature' ρ b) := by
  induction h with
  | succeed | fail | eq => exact fun _ _ _ _ => .refl _
  | disj h h' ih ih' =>
    intro ρ todo b hb
    have hleft := hb.next fun xs => ⟨xs, .left⟩
    have hright := hb.next fun xs => ⟨xs, .right⟩
    refine (ih ρ todo b hleft).bind (apply_keeps hs hkeep h ρ todo b hleft) fun gs _ => ?_
    exact (ih' ρ todo b hright).bind (apply_keeps hs hkeep h' ρ todo b hright) fun hs _ => .refl _
  | conj h h' ih ih' =>
    intro ρ todo b hb
    have hfirst := hb.next fun xs => ⟨xs, .conj⟩
    refine (ih ρ _ b hfirst).bind (apply_keeps hs hkeep h ρ _ b hfirst) fun gs hgs => ?_
    exact appendMap_muted (apply_keeps hs hkeep h' ρ) (ih' ρ todo) hgs
  | fresh x h ih =>
    intro ρ todo b hb
    obtain ⟨xs, hbranch⟩ := hb
    have hfresh : alloc b = b.fresh := halloc _ hbranch ⟨x, h, ρ, todo, rfl⟩
    simp only [apply, applyWith, hfresh]
    cases hf : b.fresh with
    | error e => exact .fault e
    | ok v =>
      obtain ⟨y, m⟩ := v
      simp only [Logged.ofExcept, Logged.value_bind, Logged.after_nil]
      exact ih _ todo m ⟨y :: xs, hbranch.tail (.fresh hf)⟩
  | call r args => exact fun ρ todo b hb => hcall r (args.map ρ.instantiate) b (hb.acyclic hs)
  | ifte h yes no ih ihyes ihno =>
    intro ρ todo b hb
    have hcondition := hb.next fun xs => ⟨xs, .condition⟩
    refine (ih ρ _ b hcondition).bind (apply_keeps hs hkeep h ρ _ b hcondition) fun gs hgs => ?_
    refine (hmature _ gs hgs).bind (hkeep _ gs hgs) fun gs hgs => ?_
    split
    · exact ihno ρ todo b (hb.next fun xs => ⟨xs, .otherwise⟩)
    · exact appendMap_muted (apply_keeps hs hkeep yes ρ) (ihyes ρ todo) hgs
  | once h ih =>
    intro ρ todo b hb
    have honce := hb.next fun xs => ⟨xs, .once⟩
    refine (ih ρ todo b honce).bind (apply_keeps hs hkeep h ρ todo b honce) fun gs hgs => ?_
    refine (hmature _ gs hgs).bind (hkeep _ gs hgs) fun gs _ => ?_
    cases gs <;> exact .refl _

/-- What is suspended gives the same stream in both searches. -/
theorem Closure.run_muted (rounds : Nat) (c : Closure) : ∀ todo b, g.Visits p s (c :: todo) b →
    (Closure.run p rounds c b).Muted names (Closure.runWith alloc p' rounds c b) := by
  induction rounds generalizing c with
  | zero => exact fun _ _ _ => .fault _
  | succ n ih =>
    have hrun := Goal.run_keeps (p := p) (g := g) hs n
    refine Goal.apply_muted hs halloc hcall (fun todo st hst => ?_) (fun todo st hst => ?_) c.goal
      c.scope
    · exact hst.mature hrun Goal.explains_unending n
    · exact mature_muted hrun ih n hst

/-- Both searches make the same steps. -/
theorem Goal.steps_muted (rounds k : Nat) :
    (g.steps p rounds s k).Muted names (g.stepsWith alloc p' rounds s k) := by
  have hrun := Closure.run_muted hs halloc hcall rounds
  refine (hrun ⟨g, []⟩ [] s ⟨[], .refl⟩).bind (answers_meets hs rounds) fun answers h => ?_
  exact trace_muted (run_keeps hs rounds) hrun k h

end

end Relational
