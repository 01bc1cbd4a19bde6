import Relational.Proofs.Goal.Branch

/-!
# Stores that grow

Whatever a goal is made of, the search only ever adds to the store that it starts from. A state that
is emitted is the end of a branch, and along a branch the store stays acyclic, no variable gets a
second binding, and what is new stands before what was there (`Continues.growsTo`). So this holds of
all states that a goal emits and of all states of a run (`emitted_states_grow`).
-/

namespace Relational

variable {p : Program} {g : Goal} {s b : State}

/-- The second state is well formed and has grown out of the first one: its store is that of the
first one with bindings of variables put before that are unbound there. -/
structure State.GrowsTo (s b : State) : Prop where
  acyclic : b.store.Acyclic
  once : b.store.BindsOnce
  newer : ∃ newer, b.store.bindings = newer ++ s.store.bindings ∧
    ∀ e ∈ newer, s.store.lookup e.1 = none
  counter : s.counter ≤ b.counter

theorem State.Continues.growsTo (h : s.Continues b) (honce : s.store.BindsOnce) : s.GrowsTo b :=
  ⟨h.acyclic, h.grows.bindsOnce honce, h.grows.exists_newer, h.counter⟩

theorem Goal.Visits.growsTo {todo : List Closure} (h : g.Visits p s todo b)
    (hs : s.store.Acyclic) (honce : s.store.BindsOnce) : s.GrowsTo b := by
  obtain ⟨xs, hbranch⟩ := h
  exact (hbranch.continues hs).growsTo honce

/-- From a well-formed state every goal emits well-formed states alone, which have grown out of it,
and so the states of a run have grown out of the empty one. -/
theorem emitted_states_grow (hs : s.store.Acyclic) (honce : s.store.BindsOnce) :
    (∀ rounds k b, g.EmitsAt p rounds s k b → s.GrowsTo b) ∧
      (∀ rounds limit states events, g.run p rounds limit = .value states events →
        ∀ b ∈ states, State.empty.GrowsTo b) ∧
      ∀ rounds n states events, g.first p rounds n = .value states events →
        ∀ b ∈ states, State.empty.GrowsTo b := by
  have hempty : State.empty.store.Acyclic := Store.acyclic_empty
  have honceEmpty : State.empty.store.BindsOnce := List.nodup_nil
  refine ⟨fun rounds k b hb => ?_, fun rounds limit states events h b hb => ?_,
    fun rounds n states events h b hb => ?_⟩
  · exact (hb.visits hs).growsTo hs honce
  · have hmeets := Goal.run_meets (p := p) (g := g) rounds limit
    rw [h] at hmeets
    exact (hmeets b hb).growsTo hempty honceEmpty
  · have hmeets := Goal.first_meets (p := p) (g := g) rounds n
    rw [h] at hmeets
    exact (hmeets b hb).growsTo hempty honceEmpty

/-- Where `l` is bound to `(,y . ,z)`, a soft cut on the first component of `l` binds `x` and the
variable that it allocates, and the goal behind it binds `y` under `once`. -/
theorem emitted_states_grow_ifte :
    let s : State := ⟨Store.empty.push ⟨"l"⟩ (.pair (.named "y") (.named "z")), 3⟩
    let b : State := ⟨((s.store.push ⟨"x"⟩ (.named "y")).push (.fresh 3) (.named "z")).push ⟨"y"⟩
      (.sym "a"), 4⟩
    let g := Goal.ifte (.call .caro [.named "l", .named "x"]) (.once (.eq (.named "x") (.sym "a")))
      .fail
    s.store.Acyclic ∧ s.store.BindsOnce ∧ g.EmitsAt [] 3 s 0 b ∧ s.GrowsTo b := by
  intro s b g
  have hs : s.store.Acyclic := Store.acyclic_empty.push rfl (by decide)
  have honce : s.store.BindsOnce := List.nodup_singleton _
  have hemits : g.EmitsAt [] 3 s 0 b := ⟨[.emit b], [], by decide +kernel, rfl⟩
  exact ⟨hs, honce, hemits, (emitted_states_grow hs honce).1 3 0 b hemits⟩

end Relational
