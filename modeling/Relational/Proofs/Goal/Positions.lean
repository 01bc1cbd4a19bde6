import Relational.Proofs.Goal.Unfolding

/-!
# The positions of unfoldings

Every unfolding of a pure goal that reaches a state has its place among the answers. `Unfolding.At`
follows the unfolding through the streams to the step at which its state is emitted: `Goal.Gives`
says which stream a goal gives, `LazyStream.turn` and `LazyStream.Visits` say where the steps of the
parts come in the whole. There is one unfolding at every step that emits a state (`exists_at`,
`At.unfolding_unique`), and one step for every unfolding (`Reaches.exists_at`, `At.step_unique`).
-/

namespace Relational

open LazyStream

/-- From the state `s` the goal gives the stream of answers `st`. -/
def Goal.Gives (p : Program) (n : Nat) (g : Goal) (ρ : Scope) (s : State) (st : Answers) : Prop :=
  ∃ events, Closure.run p (n + 1) ⟨g, ρ⟩ s = .value st events

variable {p : Program} {n : Nat} {g h : Goal} {ρ : Scope} {s b : State} {st : Answers} {k : Nat}

/-! ## What goals give -/

namespace Goal

theorem Gives.unique {st' : Answers} (h : g.Gives p n ρ s st) (h' : g.Gives p n ρ s st') :
    st = st' := by
  obtain ⟨_, h⟩ := h
  obtain ⟨_, h'⟩ := h'
  rw [h] at h'
  injection h'

theorem gives_succeed : succeed.Gives p n ρ s st ↔ st = singleton s := by
  have hrun : Closure.run p (n + 1) ⟨.succeed, ρ⟩ s = .value (singleton s) [] := rfl
  simp [Gives, hrun, eq_comm]

theorem gives_fail : fail.Gives p n ρ s st ↔ st = empty := by
  have hrun : Closure.run p (n + 1) ⟨.fail, ρ⟩ s = .value empty [] := rfl
  simp [Gives, hrun, eq_comm]

theorem gives_eq {u v : Term} (h : (eq u v).Gives p n ρ s st) :
    (∃ r, s.store.unify (ρ.instantiate u) (ρ.instantiate v) = .ok (some r) ∧
      st = singleton { s with store := r }) ∨
    s.store.unify (ρ.instantiate u) (ρ.instantiate v) = .ok none ∧ st = empty := by
  obtain ⟨events, h⟩ := h
  rw [Closure.run_eq] at h
  cases ho : s.store.unify (ρ.instantiate u) (ρ.instantiate v) with
  | error e => rw [ho] at h; cases h
  | ok o =>
    rw [ho] at h
    cases o with
    | some r => cases h; exact .inl ⟨r, rfl, rfl⟩
    | none => cases h; exact .inr ⟨rfl, rfl⟩

/-- A disjunction gives what its goals give, in turns. -/
theorem gives_disj : (disj g h).Gives p n ρ s st ↔
    ∃ gs hs, g.Gives p n ρ s gs ∧ h.Gives p n ρ s hs ∧ st = gs.append hs := by
  rw [Gives, Closure.run_disj, Logged.bind_eq_value_iff]
  constructor
  · rintro ⟨gs, first, events, hgs, hrest⟩
    obtain ⟨hs, second, _, hhs, happend⟩ := Logged.bind_eq_value_iff.1 ⟨events, hrest⟩
    cases happend
    exact ⟨gs, hs, ⟨first, hgs⟩, ⟨second, hhs⟩, rfl⟩
  · rintro ⟨gs, hs, ⟨first, hgs⟩, ⟨second, hhs⟩, rfl⟩
    exact ⟨gs, first, second, hgs, by rw [hhs]; simp [Logged.pure_eq, Logged.after]⟩

/-- A conjunction gives what its second goal gives for the states of the first one. -/
theorem gives_conj : (conj g h).Gives p n ρ s st ↔
    ∃ gs, g.Gives p n ρ s gs ∧ Maps (Closure.run p (n + 1)) ⟨h, ρ⟩ gs st := by
  rw [Gives, Closure.run_conj, Logged.bind_eq_value_iff]
  constructor
  · rintro ⟨gs, first, events, hgs, hmaps⟩
    exact ⟨gs, ⟨first, hgs⟩, events, hmaps⟩
  · rintro ⟨gs, ⟨first, hgs⟩, events, hmaps⟩
    exact ⟨gs, first, events, hgs, hmaps⟩

/-- A goal about a new variable gives what it gives once the variable has been allocated. -/
theorem gives_fresh_iff {x : Var} : (fresh x g).Gives p n ρ s st ↔
    ∃ y b, s.fresh = .ok (y, b) ∧ g.Gives p n ((x, .var y) :: ρ) b st := by
  rw [Gives, Closure.run_fresh]
  cases hf : s.fresh with
  | error e => simp [Logged.ofExcept]
  | ok v => simp [Logged.ofExcept, Gives, Prod.ext_iff]

theorem gives_fresh {x : Var} (h : (fresh x g).Gives p n ρ s st) :
    g.Gives p n ((x, .var (.fresh s.counter)) :: ρ) { s with counter := s.counter + 1 } st := by
  obtain ⟨y, b, hf, h⟩ := gives_fresh_iff.1 h
  obtain ⟨rfl, rfl⟩ := State.fresh_eq_ok hf
  exact h

theorem gives_call {r : RelName} {args : List Term} (h : (call r args).Gives p n ρ s st) :
    st = .delay ⟨(p.definition r).body, .ofArgs (p.definition r).params (args.map ρ.instantiate)⟩
      s := by
  obtain ⟨events, h⟩ := h
  rw [Closure.run_call] at h
  exact Definition.eq_delay_of_apply h

end Goal

namespace Unfolding

/-- The unfolding is found at step `k` of what the goal gives. -/
def At (n : Nat) {g : Goal} : Unfolding p g → Scope → State → Nat → Prop
  | succeed, _, _, k | eq, _, _, k => k = 0
  | @left _ g h a, ρ, s, k => ∃ gs hs i, g.Gives p n ρ s gs ∧ h.Gives p n ρ s hs ∧
      turn (Closure.run p (n + 1)) k gs hs = .inl i ∧ a.At n ρ s i
  | @right _ g h a, ρ, s, k => ∃ gs hs i, g.Gives p n ρ s gs ∧ h.Gives p n ρ s hs ∧
      turn (Closure.run p (n + 1)) k gs hs = .inr i ∧ a.At n ρ s i
  | @conj _ g h a a', ρ, s, k => ∃ gs m i j, g.Gives p n ρ s gs ∧
      stepAt (Closure.run p (n + 1)) i gs = some (.ok (.emit m)) ∧
      Visits (Closure.run p (n + 1)) ⟨h, ρ⟩ gs k i j ∧ a.At n ρ s i ∧ a'.At n ρ m j
  | @fresh _ x _ a, ρ, s, k =>
    a.At n ((x, .var (.fresh s.counter)) :: ρ) { s with counter := s.counter + 1 } k
  | @call _ r args a, ρ, s, k => ∃ i, k = i + 1 ∧
      a.At n (.ofArgs (p.definition r).params (args.map ρ.instantiate)) s i

/-- An unfolding is found at one step alone. -/
theorem At.step_unique {a : Unfolding p g} {k' : Nat} (h : a.At n ρ s k) (h' : a.At n ρ s k') :
    k = k' := by
  induction a generalizing ρ s k k' with
  | succeed | eq => exact h.trans h'.symm
  | left a ih =>
    obtain ⟨gs, hs, i, hgs, hhs, hturn, hi⟩ := h
    obtain ⟨gs', hs', i', hgs', hhs', hturn', hi'⟩ := h'
    rw [← hgs.unique hgs', ← hhs.unique hhs', ← ih hi hi'] at hturn'
    exact turn_injective gs hs (hturn.trans hturn'.symm)
  | right a ih =>
    obtain ⟨gs, hs, i, hgs, hhs, hturn, hi⟩ := h
    obtain ⟨gs', hs', i', hgs', hhs', hturn', hi'⟩ := h'
    rw [← hgs.unique hgs', ← hhs.unique hhs', ← ih hi hi'] at hturn'
    exact turn_injective gs hs (hturn.trans hturn'.symm)
  | conj a b iha ihb =>
    obtain ⟨gs, m, i, j, hgs, hm, hvisit, ha, hb⟩ := h
    obtain ⟨gs', m', i', j', hgs', hm', hvisit', ha', hb'⟩ := h'
    obtain rfl := hgs.unique hgs'
    obtain rfl := iha ha ha'
    rw [hm] at hm'
    cases hm'
    rw [← ihb hb hb'] at hvisit'
    exact hvisit.step_unique hvisit'
  | fresh a ih => exact ih h h'
  | call a ih =>
    obtain ⟨i, rfl, hi⟩ := h
    obtain ⟨i', rfl, hi'⟩ := h'
    rw [ih hi hi']

/-- No two unfoldings are found at one step. -/
theorem At.unfolding_unique {a a' : Unfolding p g} (h : a.At n ρ s k) (h' : a'.At n ρ s k) :
    a = a' := by
  induction a generalizing ρ s k with
  | succeed | eq => cases a'; rfl
  | left a ih =>
    obtain ⟨gs, hs, i, hgs, hhs, hturn, hi⟩ := h
    cases a' with
    | left a' =>
      obtain ⟨gs', hs', i', hgs', hhs', hturn', hi'⟩ := h'
      rw [← hgs.unique hgs', ← hhs.unique hhs', hturn] at hturn'
      cases hturn'
      rw [ih hi hi']
    | right a' =>
      obtain ⟨gs', hs', i', hgs', hhs', hturn', -⟩ := h'
      rw [← hgs.unique hgs', ← hhs.unique hhs', hturn] at hturn'
      cases hturn'
  | right a ih =>
    obtain ⟨gs, hs, i, hgs, hhs, hturn, hi⟩ := h
    cases a' with
    | left a' =>
      obtain ⟨gs', hs', i', hgs', hhs', hturn', -⟩ := h'
      rw [← hgs.unique hgs', ← hhs.unique hhs', hturn] at hturn'
      cases hturn'
    | right a' =>
      obtain ⟨gs', hs', i', hgs', hhs', hturn', hi'⟩ := h'
      rw [← hgs.unique hgs', ← hhs.unique hhs', hturn] at hturn'
      cases hturn'
      rw [ih hi hi']
  | conj a b iha ihb =>
    obtain ⟨gs, m, i, j, hgs, hm, hvisit, ha, hb⟩ := h
    cases a' with
    | conj a' b' =>
      obtain ⟨gs', m', i', j', hgs', hm', hvisit', ha', hb'⟩ := h'
      obtain rfl := hgs.unique hgs'
      obtain ⟨rfl, rfl⟩ := hvisit.index_unique hvisit'
      rw [hm] at hm'
      cases hm'
      rw [iha ha ha', ihb hb hb']
  | fresh a ih =>
    cases a' with
    | fresh a' => rw [ih h h']
  | call a ih =>
    obtain ⟨i, rfl, hi⟩ := h
    cases a' with
    | call a' =>
      obtain ⟨i', hk, hi'⟩ := h'
      cases hk
      rw [ih hi hi']

/-- Where a pure goal emits a state, there is an unfolding that reaches it. -/
theorem exists_at (hp : p.Pure) (hg : g.Pure) (hst : g.Gives p n ρ s st)
    (hk : stepAt (Closure.run p (n + 1)) k st = some (.ok (.emit b))) :
    ∃ a : Unfolding p g, a.At n ρ s k ∧ a.Reaches ρ s b := by
  obtain ⟨N, hN⟩ : ∃ N, forced (Closure.run p (n + 1)) k st < N := ⟨_, Nat.lt_succ_self _⟩
  -- a call is unfolded when its suspension is forced, and all else is smaller
  induction N generalizing g ρ s st k b with
  | zero => omega
  | succ N ih =>
    induction g generalizing ρ s st k b with
    | succeed =>
      rw [Goal.gives_succeed.1 hst] at hk
      obtain ⟨rfl, rfl⟩ := stepAt_singleton.1 hk
      exact ⟨succeed, rfl, reaches_succeed.2 rfl⟩
    | fail =>
      rw [Goal.gives_fail.1 hst] at hk
      cases k <;> cases hk
    | eq u v =>
      rcases Goal.gives_eq hst with ⟨r, hr, rfl⟩ | ⟨-, rfl⟩
      · obtain ⟨rfl, rfl⟩ := stepAt_singleton.1 hk
        exact ⟨eq, rfl, reaches_eq.2 ⟨r, hr, rfl⟩⟩
      · cases k <;> cases hk
    | disj g h ihg ihh =>
      obtain ⟨gs, hs, hgs, hhs, rfl⟩ := Goal.gives_disj.1 hst
      cases hturn : turn (Closure.run p (n + 1)) k gs hs with
      | inl i =>
        have hle := forced_le_of_turn_inl hturn
        rw [stepAt_append_of_inl hturn] at hk
        obtain ⟨a, ha, hreach⟩ := ihg hg.1 hgs hk (by omega)
        exact ⟨left a, ⟨gs, hs, i, hgs, hhs, hturn, ha⟩, reaches_left.2 hreach⟩
      | inr i =>
        have hle := forced_le_of_turn_inr hturn
        rw [stepAt_append_of_inr hturn] at hk
        obtain ⟨a, ha, hreach⟩ := ihh hg.2 hhs hk (by omega)
        exact ⟨right a, ⟨gs, hs, i, hgs, hhs, hturn, ha⟩, reaches_right.2 hreach⟩
    | conj g h ihg ihh =>
      obtain ⟨gs, hgs, hmaps⟩ := Goal.gives_conj.1 hst
      obtain ⟨i, j, hvisit⟩ := exists_visits hmaps hk
      obtain ⟨m, part, log, hm, hpart⟩ := hvisit.exists_part
      obtain ⟨hstep, hle, hpartle⟩ := hvisit.spec hmaps hm hpart
      rw [hstep] at hk
      obtain ⟨a, ha, hfirst⟩ := ihg hg.1 hgs hm (by omega)
      obtain ⟨a', ha', hsecond⟩ := ihh hg.2 ⟨log, hpart⟩ hk (by omega)
      exact ⟨conj a a', ⟨gs, m, i, j, hgs, hm, hvisit, ha, ha'⟩, reaches_conj.2 ⟨m, hfirst, hsecond⟩⟩
    | fresh x g ihg =>
      obtain ⟨a, ha, hreach⟩ := ihg hg (Goal.gives_fresh hst) hk hN
      exact ⟨fresh a, ha, reaches_fresh.2 hreach⟩
    | call r args =>
      obtain rfl := Goal.gives_call hst
      obtain ⟨i, st', log, rfl, hforce, hi⟩ := exists_of_stepAt_emit rfl hk
      rw [forced_succ_of_value rfl hforce] at hN
      obtain ⟨a, ha, hreach⟩ := ih (hp.definition r) ⟨log, hforce⟩ hi (by omega)
      exact ⟨call a, ⟨i, rfl, ha⟩, reaches_call.2 hreach⟩
    | ifte | once => exact hg.elim

/-- Where no step ends in a fault, every state that an unfolding reaches is emitted. -/
theorem Reaches.exists_at {a : Unfolding p g} (h : a.Reaches ρ s b) (hst : g.Gives p n ρ s st)
    (hfaultless : st.Faultless (Closure.run p (n + 1))) :
    ∃ k, a.At n ρ s k ∧ stepAt (Closure.run p (n + 1)) k st = some (.ok (.emit b)) := by
  induction a generalizing ρ s st b with
  | succeed =>
    rw [Goal.gives_succeed.1 hst, reaches_succeed.1 h]
    exact ⟨0, rfl, rfl⟩
  | eq =>
    obtain ⟨r, hr, rfl⟩ := reaches_eq.1 h
    rcases Goal.gives_eq hst with ⟨r', hr', rfl⟩ | ⟨hr', -⟩
    · rw [hr] at hr'
      cases hr'
      exact ⟨0, rfl, rfl⟩
    · rw [hr] at hr'
      cases hr'
  | left a ih =>
    obtain ⟨gs, hs, hgs, hhs, rfl⟩ := Goal.gives_disj.1 hst
    obtain ⟨i, hi, hemit⟩ := ih (reaches_left.1 h) hgs hfaultless.of_append_left
    obtain ⟨k, hturn⟩ := exists_turn_inl hfaultless (active_of_emit hemit)
    exact ⟨k, ⟨gs, hs, i, hgs, hhs, hturn, hi⟩, (stepAt_append_of_inl hturn).trans hemit⟩
  | right a ih =>
    obtain ⟨gs, hs, hgs, hhs, rfl⟩ := Goal.gives_disj.1 hst
    obtain ⟨i, hi, hemit⟩ := ih (reaches_right.1 h) hhs hfaultless.of_append_right
    obtain ⟨k, hturn⟩ := exists_turn_inr hfaultless (active_of_emit hemit)
    exact ⟨k, ⟨gs, hs, i, hgs, hhs, hturn, hi⟩, (stepAt_append_of_inr hturn).trans hemit⟩
  | conj a a' iha iha' =>
    obtain ⟨gs, hgs, hmaps⟩ := Goal.gives_conj.1 hst
    obtain ⟨m, hfirst, hsecond⟩ := reaches_conj.1 h
    obtain ⟨i, hi, hm⟩ := iha hfirst hgs (hmaps.faultless hfaultless)
    obtain ⟨part, log, hpart, hpartf, hvisit⟩ := hmaps.exists_part hfaultless hm
    obtain ⟨j, hj, hemit⟩ := iha' hsecond ⟨log, hpart⟩ hpartf
    obtain ⟨k, hk⟩ := hvisit j (active_of_emit hemit)
    obtain ⟨hstep, -, -⟩ := hk.spec hmaps hm hpart
    exact ⟨k, ⟨gs, m, i, j, hgs, hm, hk, hi, hj⟩, hstep.trans hemit⟩
  | fresh a ih => exact ih (reaches_fresh.1 h) (Goal.gives_fresh hst) hfaultless
  | call a ih =>
    obtain rfl := Goal.gives_call hst
    obtain ⟨st', log, hforce, hst'⟩ := hfaultless.exists_force rfl
    obtain ⟨i, hi, hemit⟩ := ih (reaches_call.1 h) ⟨log, hforce⟩ hst'
    exact ⟨i + 1, ⟨i, rfl, hi⟩, (stepAt_succ_of_value rfl hforce).trans hemit⟩

end Unfolding

/-! ## What goals emit -/

namespace Goal

/-- A state that a pure goal emits is reached by the unfolding at that step. -/
theorem EmitsAt.exists_unfolding (h : g.EmitsAt p (n + 1) s k b) (hp : p.Pure) (hg : g.Pure) :
    ∃ a : Unfolding p g, a.At n [] s k ∧ a.Reaches [] s b := by
  obtain ⟨answers, events, hanswers⟩ := h.exists_answers
  exact Unfolding.exists_at hp hg ⟨events, hanswers⟩ ((emitsAt_iff hanswers).1 h)

/-- A state that an unfolding of a pure goal reaches is emitted at its step, unless the counter
overflows. -/
theorem exists_emitsAt (hp : p.Pure) (hg : g.Pure) (hs : s.store.Acyclic)
    (hoverflow : ¬ g.Overflows p (n + 1) s) {a : Unfolding p g} (ha : a.Reaches [] s b) :
    ∃ k, a.At n [] s k ∧ g.EmitsAt p (n + 1) s k b := by
  obtain ⟨answers, events, hanswers, hfaultless⟩ := exists_faultless hp hg hs hoverflow
  obtain ⟨k, hk, hemit⟩ := ha.exists_at ⟨events, hanswers⟩ hfaultless
  exact ⟨k, hk, (emitsAt_iff hanswers).2 hemit⟩

end Goal

end Relational
