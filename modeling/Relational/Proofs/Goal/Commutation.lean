import Mathlib.Data.Set.Card
import Relational.Proofs.Goal.Positions
import Relational.Proofs.Goal.Renaming

/-!
# The order of conjuncts

The two goals of a conjunction may change places. The states that are emitted are others then: their
bindings were made in another order and in another direction, the variables that were allocated have
other names, and the states come at other steps. But each unfolding of one conjunction belongs to one
of the other, and the states that the two reach show every term in the same way
(`Unfolding.exists_reaches_swap`). So every answer comes equally often, finitely or infinitely often,
whatever the order: that is `encard_conj_comm`.
-/

namespace Relational

variable {p : Program} {g h : Goal} {s b : State} {t r : Term} {n : Nat}

namespace Unfolding

/-- The valuations that solve the equations of a conjunction are those that solve the equations of
the conjunction in the other order, at the exchanged variables. -/
theorem solves_conj_swap (a : Unfolding p g) (a' : Unfolding p h) {c : Nat} (hp : p.Admissible c)
    (hg : g.Admissible p c) (hh : h.Admissible p c) (σ : Valuation) :
    σ.Solves ((conj a' a).equations [] c) ↔
      Valuation.Solves (σ ∘ Var.exchange c a.allocated a'.allocated)
        ((conj a a').equations [] c) := by
  have hnames : ∀ {q : Goal}, q.Admissible p c → Scope.Denotes []
      (fun x => .var (Var.exchange c a.allocated a'.allocated x)) (Scope.value []) q :=
    fun hq x hx => congrArg Term.var (Var.exchange_older (hq.older x hx))
  have hfirst := a.equations_rename hp hg.saturated (fun _ => Var.exchange_older) (hnames hg)
    fun i hi => Var.exchange_first hi
  have hsecond := a'.equations_rename hp hh.saturated (fun _ => Var.exchange_older) (hnames hh)
    fun i hi => Var.exchange_second hi
  rw [equations, equations, hfirst, hsecond, Valuation.solves_append, Valuation.solves_append,
    Valuation.solves_rename, Valuation.solves_rename, and_comm]

/-- When an unfolding of a conjunction reaches a state, then the unfolding in the other order reaches
one in which every term whose variables are older is shown in the same way. -/
theorem exists_reaches_swap {a : Unfolding p g} {a' : Unfolding p h}
    (hreaches : (conj a a').Reaches [] s b) (hp : p.Admissible s.counter)
    (hg : g.Admissible p s.counter) (hh : h.Admissible p s.counter) (hs : s.store.Acyclic)
    (hold : s.store.All (Var.Older s.counter)) :
    ∃ b', (conj a' a).Reaches [] s b' ∧
      ∀ t : Term, (∀ x ∈ t.vars, x.Older s.counter) → b.reify t = b'.reify t := by
  let π := Var.exchange s.counter a.allocated a'.allocated
  have hsolver := hs.solver_of_unifyAll hreaches.store
  have hstore : ∀ σ : Valuation, σ.Satisfies s.store ↔ Valuation.Satisfies (σ ∘ π) s.store := by
    intro σ
    have hπ : ∀ x, x.Older s.counter → (σ ∘ π) x = σ x := by
      intro x hx
      exact congrArg σ (Var.exchange_older hx)
    exact ⟨fun h => h.congr hold hπ, fun h => h.congr hold fun x hx => (hπ x hx).symm⟩
  have hboth : ∀ σ : Valuation,
      σ.Satisfies s.store ∧ σ.Solves ((conj a' a).equations [] s.counter) ↔
        Valuation.Satisfies (σ ∘ π) b.store := fun σ => by
    rw [hsolver.satisfies_iff, hstore σ, solves_conj_swap a a' hp hg hh σ]
  -- the solution of the store that is reached, at the exchanged variables, solves the other equations
  have hsolution : (b.store.solution ∘ π.symm) ∘ π = b.store.solution := by
    funext x
    simp only [Function.comp_apply, Equiv.symm_apply_apply]
  have hsolves := (hboth (b.store.solution ∘ π.symm)).2
    (hsolution.symm ▸ hsolver.acyclic.solution_satisfies)
  obtain ⟨q, hq⟩ := (hs.exists_unifyAll_iff _).2 ⟨_, hsolves⟩
  have hsolver' := hs.solver_of_unifyAll hq
  refine ⟨⟨q, s.counter + (conj a' a).allocated⟩, ⟨hq, rfl⟩, fun t ht => ?_⟩
  exact hsolver.acyclic.reify_eq_of_satisfies_iff hsolver'.acyclic π
    (fun σ => (hsolver'.satisfies_iff σ).trans (hboth σ)) fun x hx => Var.exchange_older (ht x hx)

end Unfolding

/-- The steps at which a goal emits a state that shows the term `t` as `r`. -/
def Goal.answersAt (p : Program) (rounds : Nat) (g : Goal) (s : State) (t r : Term) : Set Nat :=
  {k | ∃ b, g.EmitsAt p rounds s k b ∧ b.reify t = .ok r}

/-- No answer comes more often in one order of two conjuncts than in the other order. -/
theorem encard_answersAt_conj_le (hp : p.Admissible s.counter) (hg : g.Admissible p s.counter)
    (hh : h.Admissible p s.counter) (hs : s.store.Acyclic) (hold : s.store.All (Var.Older s.counter))
    (ht : ∀ x ∈ t.vars, x.Older s.counter)
    (hoverflow : ¬ (Goal.conj h g).Overflows p (n + 1) s) (r : Term) :
    ((Goal.conj g h).answersAt p (n + 1) s t r).encard ≤
      ((Goal.conj h g).answersAt p (n + 1) s t r).encard := by
  -- a step goes to the step of the unfolding in the other order
  have hmatch : ∀ k ∈ (Goal.conj g h).answersAt p (n + 1) s t r,
      ∃ l ∈ (Goal.conj h g).answersAt p (n + 1) s t r,
        ∃ (a : Unfolding p g) (a' : Unfolding p h),
          (a.conj a').At n [] s k ∧ (a'.conj a).At n [] s l := by
    rintro k ⟨b, hemits, hb⟩
    obtain ⟨d, hk, hreaches⟩ := hemits.exists_unfolding hp.pure ⟨hg.pure, hh.pure⟩
    cases d with
    | conj a a' =>
      obtain ⟨b', hreaches', hshown⟩ := Unfolding.exists_reaches_swap hreaches hp hg hh hs hold
      have hpure : (Goal.conj h g).Pure := ⟨hh.pure, hg.pure⟩
      obtain ⟨l, hl, hemits'⟩ := Goal.exists_emitsAt hp.pure hpure hs hoverflow hreaches'
      exact ⟨l, ⟨b', hemits', hshown t ht ▸ hb⟩, a, a', hk, hl⟩
  choose! place hplace hat using hmatch
  refine Set.encard_le_encard_of_injOn hplace fun k hk l hl hkl => ?_
  obtain ⟨a, a', ha, ha'⟩ := hat k hk
  obtain ⟨c, c', hc, hc'⟩ := hat l hl
  rw [hkl] at ha'
  obtain ⟨rfl, rfl⟩ := Unfolding.conj.inj (ha'.unfolding_unique hc')
  exact ha.step_unique hc

/-- A state that a pure goal emits from an acyclic store shows every term. -/
theorem Goal.EmitsAt.exists_reify {k : Nat} (h : g.EmitsAt p (n + 1) s k b) (hp : p.Pure)
    (hg : g.Pure) (hs : s.store.Acyclic) (t : Term) : ∃ r, b.reify t = .ok r := by
  obtain ⟨a, -, hreaches⟩ := h.exists_unfolding hp hg
  exact ⟨_, (hs.solver_of_unifyAll hreaches.store).acyclic.reify_eq t⟩

/-- Answers do not depend on the order of conjuncts: every state that is emitted shows the term, and
every term comes equally often among what the states show, in both orders, as long as the counter
does not overflow. -/
theorem encard_conj_comm (hp : p.Admissible s.counter) (hg : g.Admissible p s.counter)
    (hh : h.Admissible p s.counter) (hs : s.store.Acyclic) (hold : s.store.All (Var.Older s.counter))
    (ht : ∀ x ∈ t.vars, x.Older s.counter)
    (hoverflow : ¬ (Goal.conj g h).Overflows p (n + 1) s)
    (hoverflow' : ¬ (Goal.conj h g).Overflows p (n + 1) s) :
    (∀ k b, (Goal.conj g h).EmitsAt p (n + 1) s k b ∨ (Goal.conj h g).EmitsAt p (n + 1) s k b →
        ∃ r, b.reify t = .ok r) ∧
      ∀ r, ((Goal.conj g h).answersAt p (n + 1) s t r).encard =
        ((Goal.conj h g).answersAt p (n + 1) s t r).encard := by
  constructor
  · rintro k b (hemits | hemits)
    · exact hemits.exists_reify hp.pure ⟨hg.pure, hh.pure⟩ hs t
    · exact hemits.exists_reify hp.pure ⟨hh.pure, hg.pure⟩ hs t
  · intro r
    exact le_antisymm (encard_answersAt_conj_le hp hg hh hs hold ht hoverflow' r)
      (encard_answersAt_conj_le hp hh hg hs hold ht hoverflow r)

/-- The components of a pair may be asked for in either order. -/
theorem encard_conj_comm_caro_cdro :
    Goal.Admissible [] 0 (.call .caro [.named "l", .named "x"]) ∧
      Goal.Admissible [] 0 (.call .cdro [.named "l", .named "y"]) ∧
      ∀ r,
        ((Goal.conj (.call .caro [.named "l", .named "x"])
          (.call .cdro [.named "l", .named "y"])).answersAt [] 1 .empty (.named "l") r).encard =
        ((Goal.conj (.call .cdro [.named "l", .named "y"])
          (.call .caro [.named "l", .named "x"])).answersAt [] 1 .empty (.named "l") r).encard := by
  have hl : Var.Older 0 ⟨"l"⟩ := Var.older_of_head_ne (by decide) 0
  have hx : Var.Older 0 ⟨"x"⟩ := Var.older_of_head_ne (by decide) 0
  have hy : Var.Older 0 ⟨"y"⟩ := Var.older_of_head_ne (by decide) 0
  have hcaro : Goal.Admissible [] 0 (.call .caro [.named "l", .named "x"]) :=
    ⟨trivial, Nat.le_refl 2, List.forall_mem_cons.2 ⟨hl, List.forall_mem_singleton.2 hx⟩⟩
  have hcdro : Goal.Admissible [] 0 (.call .cdro [.named "l", .named "y"]) :=
    ⟨trivial, Nat.le_refl 2, List.forall_mem_cons.2 ⟨hl, List.forall_mem_singleton.2 hy⟩⟩
  refine ⟨hcaro, hcdro, (encard_conj_comm (n := 0) (s := .empty) (t := .named "l")
    (Program.admissible_nil 0) hcaro hcdro Store.acyclic_empty (Store.all_empty _)
    (List.forall_mem_singleton.2 hl) ?_ ?_).2⟩
  · exact Goal.not_overflows_of_stop_mem (k := 20) rfl (by decide +kernel)
  · exact Goal.not_overflows_of_stop_mem (k := 20) rfl (by decide +kernel)

end Relational
