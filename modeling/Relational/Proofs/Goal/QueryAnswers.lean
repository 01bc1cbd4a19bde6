import Relational.Proofs.Goal.ListRelations
import Relational.Proofs.Goal.Runs

/-!
# Answers to queries

A query comes to its end with what its search yields, as its variable is shown there
(`Query.exists_run`). A query for one variable starts in a state in which nothing is known of it
(`Query.exists_run_one`), and a query for two variables in a state in which the list of both is shown
(`Query.exists_run_two`).
-/

namespace Relational

open LazyStream

variable {p : Program} {n : Nat} {ρ : Scope} {st : Answers} {limit : Limit} {t : Term}
  {terms : List Term} {x y : Var} {r : RelName} {args args' : List Term}

/-! ## Names -/

theorem Scope.instantiate_var_self : Scope.instantiate ((x, t) :: ρ) (.var x) = t := by
  simp [instantiate, value]

theorem Scope.instantiate_var_of_ne (hxy : x ≠ y) :
    Scope.instantiate ((y, t) :: ρ) (.var x) = ρ.instantiate (.var x) := by
  have hlookup : List.lookup x ((y, t) :: ρ) = ρ.lookup x := by
    rw [List.lookup_cons, beq_false_of_ne hxy]
  exact congrArg (Option.getD · (.var x)) hlookup

theorem Scope.instantiate_ground (ht : t.Ground) : ρ.instantiate t = t := ht.mapVars_eq ρ.value

/-! ## Running queries -/

/-- A variable is shown in states as it is in each of them. -/
theorem State.reifyEach_eq {states : List State}
    (h : List.Forall₂ (fun b u => b.reify (.var x) = .ok u) states terms) :
    State.reifyEach x states = .ok terms := by
  induction h with
  | nil => rfl
  | cons hfirst _ ih =>
    rw [State.reifyEach] at ih ⊢
    rw [List.mapM_cons, hfirst, ih]
    rfl

namespace Query

theorem exists_run {q : Query} (hgives : q.search.Gives p n [] .empty st)
    (hshows : Shows p n limit (.var (.fresh 0)) st terms) :
    ∃ N, ∀ rounds ≥ N, ∃ log, q.run p rounds limit = .value terms log := by
  obtain ⟨events, hanswers⟩ := hgives
  obtain ⟨items, ⟨m, hpulled⟩, hshown⟩ := hshows
  obtain ⟨N, hN⟩ := Goal.Pulled.exists_run ⟨st, events, hanswers, hpulled⟩
  refine ⟨N, fun rounds hrounds => ?_⟩
  obtain ⟨before, hrun⟩ := hN rounds hrounds
  rw [run, hrun, Logged.value_bind, answersIn, State.reifyEach_eq hshown]
  exact ⟨_, rfl⟩

/-- A query for a relation starts where the variable can have any value. -/
theorem exists_run_one (hargs : args.map (Scope.instantiate [(x, .var (.fresh 0))]) = args')
    (h : ∀ b : State, b.Ranges 1 (fun σ => σ (.fresh 0)) (fun _ => True) →
      Shows p 0 limit (.var (.fresh 0)) ((p.definition r).suspended args' b) terms) :
    ∃ N, ∀ rounds ≥ N, ∃ log, (one x [.call r args]).run p rounds limit = .value terms log := by
  obtain ⟨b, hfresh, hb⟩ := State.ranges_empty.fresh (by decide)
  have hany : b.Ranges 1 (fun σ => σ (.fresh 0)) fun _ => True :=
    hb.map Prod.fst (fun _ => rfl) (fun _ _ => trivial) fun t _ => ⟨(t, ()), trivial, rfl⟩
  subst hargs
  exact exists_run (Goal.gives_fresh_iff.2 ⟨_, b, hfresh, Goal.gives_suspended hb.acyclic⟩)
    (h b hany)

/-- What is searched in a query for two variables: the list of both goes by a third name. -/
theorem exists_search_two (hxy : x ≠ y) (g : Goal) : ∃ q, q ≠ x ∧ q ≠ y ∧
    (many [x, y] [g]).search = .fresh q (.fresh x (.fresh y
      (.conj (.eq (.list [.var x, .var y]) (.var q)) g))) := by
  have hnot := Var.avoiding_not_mem ([x, y] ++ [g].flatMap Goal.vars)
  simp only [List.cons_append, List.mem_cons, not_or] at hnot
  refine ⟨_, hnot.1, hnot.2.1, ?_⟩
  simp [search, many, unshadowed, hxy, Goal.freshAll, Goal.conjAll]

/-- A query for a relation and two variables starts where the list of them can be any list of two. -/
theorem exists_run_two (hxy : x ≠ y)
    (hargs : ∀ q, args.map (Scope.instantiate
      [(y, .var (.fresh 2)), (x, .var (.fresh 1)), (q, .var (.fresh 0))]) = args')
    (h : ∀ b : State, b.Ranges 3 (fun σ => (σ (.fresh 0), σ (.fresh 1), σ (.fresh 2)))
        (fun v => v.1 = .list [v.2.1, v.2.2]) →
      Shows p 0 limit (.var (.fresh 0)) ((p.definition r).suspended args' b) terms) :
    ∃ N, ∀ rounds ≥ N, ∃ log,
      (many [x, y] [.call r args]).run p rounds limit = .value terms log := by
  obtain ⟨q, hqx, hqy, hsearch⟩ := exists_search_two hxy (.call r args)
  obtain ⟨b₁, hfresh₁, hb₁⟩ := State.ranges_empty.fresh (by decide)
  obtain ⟨b₂, hfresh₂, hb₂⟩ := hb₁.fresh (by decide)
  obtain ⟨b₃, hfresh₃, hb₃⟩ := hb₂.fresh (by decide)
  let ρ : Scope := [(y, .var (.fresh 2)), (x, .var (.fresh 1)), (q, .var (.fresh 0))]
  have hx : ρ.instantiate (.var x) = .var (.fresh 1) :=
    (Scope.instantiate_var_of_ne hxy).trans Scope.instantiate_var_self
  have hy : ρ.instantiate (.var y) = .var (.fresh 2) := Scope.instantiate_var_self
  have hq : ρ.instantiate (.var q) = .var (.fresh 0) :=
    (Scope.instantiate_var_of_ne hqy).trans
      ((Scope.instantiate_var_of_ne hqx).trans Scope.instantiate_var_self)
  obtain ⟨o, heq, ho⟩ : ∃ o : Option State,
      (Goal.eq (.list [.var x, .var y]) (.var q)).Gives p 0 ρ b₃ (ofList o.toList) ∧
      Outcome 3 _ (fun v : Term × Term × Term × Unit =>
        True ∧ .list [v.2.1, v.1] = v.2.2.1) o :=
    hb₃.exists_gives_eq (Term.seenAs_pair (fun σ => by rw [hx]; rfl)
      (Term.seenAs_pair (fun σ => by rw [hy]; rfl) fun _ => rfl)) fun σ => by rw [hq]; rfl
  have hgives : (many [x, y] [.call r args]).search.Gives p 0 [] .empty
      ((p.definition r).resumed args' o) := by
    rw [hsearch, ← hargs q]
    refine Goal.gives_fresh_iff.2 ⟨_, b₁, hfresh₁, Goal.gives_fresh_iff.2 ⟨_, b₂, hfresh₂,
      Goal.gives_fresh_iff.2 ⟨_, b₃, hfresh₃, Goal.gives_conj.2 ⟨_, heq, ?_⟩⟩⟩⟩
    exact maps_option fun a ha => Goal.gives_suspended (ho.acyclic a ha)
  obtain ⟨b, rfl, hb⟩ := ho.exists_eq_some (a := (.nil, .nil, .list [.nil, .nil], ())) ⟨trivial, rfl⟩
  have hlist : b.Ranges 3 (fun σ => (σ (.fresh 0), σ (.fresh 1), σ (.fresh 2)))
      fun v => v.1 = .list [v.2.1, v.2.2] :=
    hb.map (fun v => (v.2.2.1, v.2.1, v.1)) (fun _ => rfl) (fun _ ⟨_, h⟩ => h.symm)
      fun (a, l, m) h => ⟨(m, l, a, ()), ⟨trivial, h.symm⟩, rfl⟩
  exact exists_run hgives (shows_resumed_some (h b hlist))

end Query

end Relational
