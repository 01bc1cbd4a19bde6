import Relational.Goal.Apply
import Relational.Proofs.LazyStream.Safety
import Relational.Proofs.Store.Canonical
import Relational.Proofs.Store.MostGeneral

/-!
# Pure goals

A goal is pure when it does not ask whether other goals have answers: no soft cut and no `once`. Pure
goals are applied without forcing anything (`Closure.run_conj` and the equations beside it), and from
an acyclic store the only fault in which they can end is an overflow of the counter
(`exists_faultless`). `Goal.EmitsAt` and `Goal.Overflows` say what a goal does from a state, in terms
of the first steps of its answers.
-/

namespace Relational

/-- Neither a soft cut nor `once` occurs in the goal. -/
def Goal.Pure : Goal → Prop
  | .succeed | .fail | .eq .. | .call .. => True
  | .disj g h | .conj g h => g.Pure ∧ h.Pure
  | .fresh _ g => g.Pure
  | .ifte .. | .once _ => False

/-- All relations of the program have pure bodies. -/
def Program.Pure (p : Program) : Prop := ∀ d ∈ p, d.2.body.Pure

/-- A relation that is defined by name is one of the program, unless it holds of nothing. -/
theorem Program.definition_defined (p : Program) (name : String) :
    p.definition (.defined name) = .void ∨ ∃ d ∈ p, p.definition (.defined name) = d.2 := by
  rw [Program.definition]
  cases hd : p.lookup name with
  | none => exact .inl rfl
  | some d =>
    obtain ⟨newer, older, hp, -⟩ := List.lookup_eq_some_iff.1 hd
    exact .inr ⟨(name, d), by rw [hp]; simp, rfl⟩

/-- The relations that every program has are pure. -/
theorem Program.Pure.definition {p : Program} (hp : p.Pure) (r : RelName) :
    (p.definition r).body.Pure := by
  cases r with
  | defined name =>
    rcases p.definition_defined name with h | ⟨d, hd, h⟩
    · rw [h]
      trivial
    · rw [h]
      exact hp d hd
  | conso | caro | cdro | nullo | nevero => trivial
  | membero => exact ⟨trivial, trivial, trivial⟩
  | appendo => exact ⟨⟨trivial, trivial⟩, trivial, trivial, trivial⟩
  | alwayso => exact ⟨trivial, trivial⟩

/-! ## Applications -/

section

variable {p : Program} {n : Nat} {g h : Goal} {ρ : Scope} {s : State}

theorem State.exists_reifyArgs (hs : s.store.Acyclic) (params : List Var) (args : List Term) :
    ∃ shown, s.reifyArgs params args = .ok shown := by
  rw [State.reifyArgs]
  induction params.zip args with
  | nil => exact ⟨[], rfl⟩
  | cons arg rest ih =>
    obtain ⟨shown, hshown⟩ := ih
    obtain ⟨x, t⟩ := arg
    have hreify : s.reify t = _ := hs.reify_eq t
    refine ⟨(x, (t.mapVars s.store.solution).canonical) :: shown, ?_⟩
    simp only [List.mapM_cons, hshown, hreify]
    rfl

/-- The application of a relation is suspended at once, whether it is logged or not. -/
theorem Definition.exists_apply (hs : s.store.Acyclic) (d : Definition) (args : List Term) :
    ∃ events, d.apply args s = .value (.delay ⟨d.body, .ofArgs d.params args⟩ s) events := by
  obtain ⟨shown, hshown⟩ := s.exists_reifyArgs hs d.params args
  rw [Definition.apply, hshown]
  cases d.traced with
  | none => exact ⟨[], rfl⟩
  | some name => exact ⟨[.applied name shown], rfl⟩

theorem Definition.eq_delay_of_apply {d : Definition} {args : List Term} {st : Answers}
    {events : List Event} (h : d.apply args s = .value st events) :
    st = .delay ⟨d.body, .ofArgs d.params args⟩ s := by
  rw [Definition.apply] at h
  cases hd : d.traced with
  | none =>
    rw [hd] at h
    cases h
    rfl
  | some name =>
    rw [hd] at h
    cases hshown : s.reifyArgs d.params args with
    | error e => rw [hshown] at h; cases h
    | ok shown =>
      rw [hshown] at h
      cases h
      rfl

theorem State.fresh_eq_ok {y : Var} {b : State} (h : s.fresh = .ok (y, b)) :
    y = .fresh s.counter ∧ b = { s with counter := s.counter + 1 } := by
  rw [State.fresh] at h
  split at h
  · cases h
    exact ⟨rfl, rfl⟩
  · cases h

theorem State.fresh_eq_error {e : Fault} (h : s.fresh = .error e) : e = .overflow := by
  rw [State.fresh] at h
  split at h
  · cases h
  · cases h
    rfl

theorem Closure.run_eq {u v : Term} : Closure.run p (n + 1) ⟨.eq u v, ρ⟩ s =
    Logged.ofExcept (s.store.unify (ρ.instantiate u) (ρ.instantiate v)) >>= fun
      | some store => pure (.singleton { s with store })
      | none => pure .empty := rfl

theorem Closure.run_disj : Closure.run p (n + 1) ⟨.disj g h, ρ⟩ s =
    Closure.run p (n + 1) ⟨g, ρ⟩ s >>= fun gs =>
      Closure.run p (n + 1) ⟨h, ρ⟩ s >>= fun hs => pure (gs.append hs) := rfl

theorem Closure.run_conj : Closure.run p (n + 1) ⟨.conj g h, ρ⟩ s =
    Closure.run p (n + 1) ⟨g, ρ⟩ s >>= fun gs =>
      gs.appendMap (Closure.run p (n + 1) ⟨h, ρ⟩) ⟨h, ρ⟩ := rfl

theorem Closure.run_fresh {x : Var} : Closure.run p (n + 1) ⟨.fresh x g, ρ⟩ s =
    Logged.ofExcept s.fresh >>= fun (y, s) =>
      Closure.run p (n + 1) ⟨g, (x, .var y) :: ρ⟩ s := rfl

theorem Closure.run_call {r : RelName} {args : List Term} :
    Closure.run p (n + 1) ⟨.call r args, ρ⟩ s =
      (p.definition r).apply (args.map ρ.instantiate) s := rfl

/-- What a pure goal can do from an acyclic store: its answers are states with acyclic stores, in
streams that wait with pure goals alone, and it ends in no fault but an overflow. -/
theorem Closure.run_safe (hp : p.Pure) (hg : g.Pure) (hs : s.store.Acyclic) :
    (Closure.run p (n + 1) ⟨g, ρ⟩ s).Safe
      (LazyStream.Within (fun c => c.goal.Pure) fun b => b.store.Acyclic) := by
  induction g generalizing ρ s with
  | succeed => exact ⟨hs, trivial⟩
  | fail => trivial
  | eq u v =>
    obtain ⟨o, ho, hunify⟩ := hs.unify_eq (ρ.instantiate u) (ρ.instantiate v)
    rw [run_eq, ho]
    cases hunify with
    | solved hr => exact ⟨hr.acyclic, trivial⟩
    | unsolvable => trivial
  | disj g h ihg ihh =>
    rw [run_disj]
    exact (ihg hg.1 hs).bind fun gs hgs => (ihh hg.2 hs).bind fun hs hhs => hgs.append hhs
  | conj g h ihg ihh =>
    rw [run_conj]
    exact (ihg hg.1 hs).bind fun gs hgs => hgs.appendMap (fun b hb => ihh hg.2 hb) hg.2
  | fresh x g ih =>
    rw [run_fresh]
    cases hf : s.fresh with
    | error e => exact State.fresh_eq_error hf
    | ok v =>
      obtain ⟨y, b⟩ := v
      obtain ⟨rfl, rfl⟩ := State.fresh_eq_ok hf
      rw [Logged.ofExcept, Logged.value_bind, Logged.after_nil]
      exact ih hg hs
  | call r args =>
    obtain ⟨events, happly⟩ := (p.definition r).exists_apply hs (args.map ρ.instantiate)
    rw [run_call, happly]
    exact ⟨hp.definition r, hs⟩
  | ifte | once => exact hg.elim

end

/-! ## What a goal does -/

namespace Goal

variable (p : Program) (rounds : Nat) (g : Goal) (s : State)

/-- The first `k` steps of the answers of a goal from a state. -/
def steps (k : Nat) : Logged (List (LazyStream.Step State)) := do
  let answers ← g.answers p rounds s
  answers.trace (Closure.run p rounds) k

/-- The goal emits the state `b` at step `k`. -/
def EmitsAt (k : Nat) (b : State) : Prop :=
  ∃ steps events, g.steps p rounds s (k + 1) = .value steps events ∧ steps[k]? = some (.emit b)

/-- A variable would have to be allocated after the largest counter. -/
def Overflows : Prop := ∃ k, g.steps p rounds s k = .fault .overflow

variable {p rounds g s} {answers : Answers} {events : List Event}

theorem emitsAt_iff (h : g.answers p rounds s = .value answers events) {k : Nat} {b : State} :
    g.EmitsAt p rounds s k b ↔
      LazyStream.stepAt (Closure.run p rounds) k answers = some (.ok (.emit b)) := by
  rw [← LazyStream.emitsAt_iff, EmitsAt, LazyStream.EmitsAt, steps, h, Logged.value_bind]
  cases answers.trace (Closure.run p rounds) (k + 1) <;> simp [Logged.after]

/-- A goal that emits a state has answers. -/
theorem EmitsAt.exists_answers {k : Nat} {b : State} (h : g.EmitsAt p rounds s k b) :
    ∃ answers events, g.answers p rounds s = .value answers events := by
  obtain ⟨steps, events, hsteps, -⟩ := h
  cases ha : g.answers p rounds s with
  | fault e => rw [Goal.steps, ha] at hsteps; cases hsteps
  | value answers log => exact ⟨answers, log, rfl⟩

/-- A pure goal has answers from an acyclic store, and none of their steps ends in a fault, unless
the counter overflows. -/
theorem exists_faultless {n : Nat} (hp : p.Pure) (hg : g.Pure) (hs : s.store.Acyclic)
    (h : ¬ g.Overflows p (n + 1) s) :
    ∃ answers events, g.answers p (n + 1) s = .value answers events ∧
      answers.Faultless (Closure.run p (n + 1)) := by
  have hsafe : (g.answers p (n + 1) s).Safe _ := Closure.run_safe hp hg hs
  cases ha : g.answers p (n + 1) s with
  | fault e =>
    rw [ha] at hsafe
    obtain rfl : e = .overflow := hsafe
    exact absurd ⟨0, by rw [steps, ha, Logged.fault_bind]⟩ h
  | value answers events =>
    rw [ha] at hsafe
    refine ⟨answers, events, rfl, fun k e hk => ?_⟩
    obtain rfl := hsafe.eq_overflow (fun c b hc hb => Closure.run_safe hp hc hb) hk
    refine h ⟨k + 1, ?_⟩
    rw [steps, ha, Logged.value_bind, LazyStream.trace_eq_fault_iff.2 ⟨k, Nat.lt_succ_self k, hk⟩]
    rfl

/-- A goal that comes to its end does not overflow. -/
theorem not_overflows_of_stop_mem {k : Nat} {steps : List (LazyStream.Step State)}
    (h : g.steps p rounds s k = .value steps events) (hstop : .stop ∈ steps) :
    ¬ g.Overflows p rounds s := by
  rintro ⟨i, hi⟩
  obtain ⟨answers, log, _, hanswers, htrace⟩ := Logged.bind_eq_value_iff.1 ⟨events, h⟩
  have hfaultless := LazyStream.faultless_of_stop_mem htrace hstop
  rw [Goal.steps, hanswers, Logged.value_bind] at hi
  cases hfault : answers.trace (Closure.run p rounds) i with
  | value steps' events' => rw [hfault] at hi; cases hi
  | fault e =>
    obtain ⟨j, -, hj⟩ := LazyStream.trace_eq_fault_iff.1 hfault
    exact hfaultless j e hj

end Goal

end Relational
