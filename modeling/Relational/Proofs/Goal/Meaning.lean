import Relational.Proofs.Goal.Freshness
import Relational.Proofs.Goal.Positions

/-!
# The meaning of goals

Under a valuation of the variables by ground terms a goal is true or not, whatever the search does:
`Holds` is truth in the least model of a program. An equation is true when both sides have one value,
a fresh name stands for some ground term, and a call is true when the body is, the parameters standing
for the values of the arguments.

The main statement is `search_sound_and_complete`. From a state whose variables are older than its
counter, a valuation that satisfies the store makes a goal true precisely when the goal emits a state
that the valuation satisfies, after it has been given other values for the variables that were
allocated; unless the counter overflows on the way.
-/

namespace Relational

/-- Truth in the least model of a program. The variables have the values `σ`, and the names of the
goal have the values `δ`. -/
inductive Holds (p : Program) (σ : Valuation) : Valuation → Goal → Prop
  | succeed {δ : Valuation} : Holds p σ δ .succeed
  | eq {δ : Valuation} {u v : Term} (h : u.mapVars δ = v.mapVars δ) : Holds p σ δ (.eq u v)
  | left {δ : Valuation} {g h : Goal} (hg : Holds p σ δ g) : Holds p σ δ (.disj g h)
  | right {δ : Valuation} {g h : Goal} (hh : Holds p σ δ h) : Holds p σ δ (.disj g h)
  | conj {δ : Valuation} {g h : Goal} (hg : Holds p σ δ g) (hh : Holds p σ δ h) :
    Holds p σ δ (.conj g h)
  | fresh {δ : Valuation} {x : Var} {g : Goal} {t : Term} (ht : t.Ground)
    (hg : Holds p σ (Function.update δ x t) g) : Holds p σ δ (.fresh x g)
  | call {δ : Valuation} {r : RelName} {args : List Term}
    (h : Holds p σ (σ.enter (p.definition r).params (args.map (·.mapVars δ)))
      (p.definition r).body) : Holds p σ δ (.call r args)

variable {p : Program} {g h : Goal} {ρ : Scope} {σ τ δ : Valuation} {c : Nat}

/-- What names denote depends on the values of the older variables alone. -/
theorem Scope.Denotes.congr {υ : Valuation} (hρ : ρ.Denotes τ δ g) (hold : ρ.Older c g)
    (h : ∀ x, x.Older c → υ x = τ x) : ρ.Denotes υ δ g := by
  intro x hx
  rw [← hρ x hx]
  exact Term.mapVars_congr fun y hy => h y (hold x hx y hy)

/-- A goal is true where the equations of one of its unfoldings are solved. -/
theorem Unfolding.holds (a : Unfolding p g) (hp : p.Admissible c) (hg : g.Saturated p)
    (hτ : ∀ x, (τ x).Ground) (hσ : ∀ r, ∀ x ∈ (p.definition r).free, τ x = σ x)
    (hρ : ρ.Denotes τ δ g) {d : Nat} (h : τ.Solves (a.equations ρ d)) : Holds p σ δ g := by
  induction a generalizing ρ δ d with
  | succeed => exact .succeed
  | eq =>
    have heq := h _ (List.mem_singleton_self _)
    rw [hρ.instantiate fun x hx => List.mem_append_left _ hx,
      hρ.instantiate fun x hx => List.mem_append_right _ hx] at heq
    exact .eq heq
  | left a ih => exact .left (ih hg.1 hρ.left h)
  | right a ih => exact .right (ih hg.2 hρ.right h)
  | conj a b iha ihb =>
    obtain ⟨hfirst, hsecond⟩ := Valuation.solves_append.1 h
    exact .conj (iha hg.1 hρ.left hfirst) (ihb hg.2 hρ.right hsecond)
  | fresh a ih => exact .fresh (hτ _) (ih hg hρ.fresh h)
  | call a ih => exact .call (ih (hp.saturated_definition _) (hρ.call hg (hσ _)) h)

/-- The equations of some unfolding of a true goal are solved, once the variables that are allocated
have been given values. -/
theorem Holds.exists_unfolding (h : Holds p σ δ g) (hp : p.Admissible c) (hg : g.Saturated p)
    (hτ : ∀ x, (τ x).Ground) (hσ : ∀ r, ∀ x ∈ (p.definition r).free, τ x = σ x)
    (hρ : ρ.Denotes τ δ g) (hold : ρ.Older c g) :
    ∃ (a : Unfolding p g) (υ : Valuation), (∀ x, (υ x).Ground) ∧ (∀ x, x.Older c → υ x = τ x) ∧
      υ.Solves (a.equations ρ c) := by
  induction h generalizing ρ τ c with
  | succeed => exact ⟨.succeed, τ, hτ, fun _ _ => rfl, τ.solves_nil⟩
  | eq heq =>
    refine ⟨.eq, τ, hτ, fun _ _ => rfl, Valuation.solves_cons.2 ⟨?_, τ.solves_nil⟩⟩
    rw [hρ.instantiate fun x hx => List.mem_append_left _ hx,
      hρ.instantiate fun x hx => List.mem_append_right _ hx]
    exact heq
  | left _ ih =>
    obtain ⟨a, υ, hυ, hagree, hsolves⟩ := ih hp hg.1 hτ hσ hρ.left hold.left
    exact ⟨.left a, υ, hυ, hagree, hsolves⟩
  | right _ ih =>
    obtain ⟨a, υ, hυ, hagree, hsolves⟩ := ih hp hg.2 hτ hσ hρ.right hold.right
    exact ⟨.right a, υ, hυ, hagree, hsolves⟩
  | conj _ _ ihg ihh =>
    obtain ⟨a, υ, hυ, hagree, hsolves⟩ := ihg hp hg.1 hτ hσ hρ.left hold.left
    have hle : c ≤ c + a.allocated := Nat.le_add_right ..
    have hσυ : ∀ r, ∀ x ∈ (p.definition r).free, υ x = σ x := by
      intro r x hx
      exact (hagree x (hp.older_definition r x hx)).trans (hσ r x hx)
    obtain ⟨b, ω, hω, hagree', hsolves'⟩ :=
      ihh (hp.mono hle) hg.2 hυ hσυ (hρ.right.congr hold.right hagree) (hold.right.mono hle)
    refine ⟨.conj a b, ω, hω, fun x hx => (hagree' x (hx.mono hle)).trans (hagree x hx), ?_⟩
    -- the first equations do not mention what is allocated behind them
    exact Valuation.solves_append.2
      ⟨hsolves.congr (a.equations_older hp hg.1 hold.left) hagree', hsolves'⟩
  | @fresh δ x g t ht _ ih =>
    have hagree : ∀ y : Var, y.Older c → Function.update τ (.fresh c) t y = τ y := by
      intro y hy
      exact Function.update_of_ne (hy c (Nat.le_refl c)) t τ
    have hground : ∀ y, (Function.update τ (.fresh c) t y).Ground := by
      intro y
      by_cases hy : y = .fresh c
      · rw [hy, Function.update_self]
        exact ht
      · rw [Function.update_of_ne hy]
        exact hτ y
    have hdenotes := (hρ.congr hold hagree).fresh (y := .fresh c)
    rw [Function.update_self] at hdenotes
    obtain ⟨a, υ, hυ, hagree', hsolves⟩ := ih (hp.mono (Nat.le_succ c)) hg hground
      (fun r y hy => (hagree y (hp.older_definition r y hy)).trans (hσ r y hy)) hdenotes hold.fresh
    exact ⟨.fresh a, υ, hυ, fun y hy => (hagree' y (hy.mono (Nat.le_succ c))).trans (hagree y hy),
      hsolves⟩
  | call _ ih =>
    obtain ⟨a, υ, hυ, hagree, hsolves⟩ := ih hp (hp.saturated_definition _) hτ hσ
      (hρ.call hg (hσ _)) (hold.call hp.scoped hg)
    exact ⟨.call a, υ, hυ, hagree, hsolves⟩

/-! ## The search -/

/-- The goal emits a state of which the bindings are satisfied by some ground valuation that agrees
with `σ` on the variables older than the counter. -/
def Goal.Finds (p : Program) (rounds : Nat) (g : Goal) (s : State) (σ : Valuation) : Prop :=
  ∃ k b τ, g.EmitsAt p rounds s k b ∧ (∀ x, Term.Ground (τ x)) ∧
    (∀ x, x.Older s.counter → τ x = σ x) ∧ Valuation.Satisfies τ b.store

/-- The search is sound and complete: it finds a valuation only if that makes the goal true, and it
finds every valuation that does, unless the counter overflows. -/
theorem search_sound_and_complete {n : Nat} {s : State} (hp : p.Admissible s.counter)
    (hg : g.Admissible p s.counter) (hs : s.store.Acyclic) (hold : s.store.All (Var.Older s.counter))
    (hσ : ∀ x, (σ x).Ground) (hsat : σ.Satisfies s.store) :
    (g.Finds p (n + 1) s σ → Holds p σ σ g) ∧
      (Holds p σ σ g → g.Finds p (n + 1) s σ ∨ g.Overflows p (n + 1) s) := by
  have hnames : Scope.Older s.counter [] g := by
    intro x hx y hy
    rw [Scope.value_nil, Term.vars_var, List.mem_singleton] at hy
    rw [hy]
    exact hg.older x hx
  constructor
  · rintro ⟨k, b, τ, hemits, hτ, hagree, hb⟩
    obtain ⟨a, -, hreaches⟩ := hemits.exists_unfolding hp.pure hg.pure
    have hsolver := hs.solver_of_unifyAll hreaches.store
    have hsolves := ((hsolver.satisfies_iff τ).1 hb).2
    have hdenotes : Scope.Denotes [] τ σ g := by
      intro x hx
      exact hagree x (hg.older x hx)
    exact a.holds hp hg.saturated hτ (fun r x hx => hagree x (hp.older_definition r x hx)) hdenotes
      hsolves
  · intro h
    by_cases hoverflow : g.Overflows p (n + 1) s
    · exact .inr hoverflow
    obtain ⟨a, τ, hτ, hagree, hsolves⟩ := h.exists_unfolding hp hg.saturated hσ
      (fun _ _ _ => rfl) (fun _ _ => rfl) hnames
    have hstore : Valuation.Satisfies τ s.store := hsat.congr hold hagree
    obtain ⟨r, hr⟩ := (hs.exists_unifyAll_iff _).2 ⟨τ, hstore, hsolves⟩
    have hreaches : a.Reaches [] s ⟨r, s.counter + a.allocated⟩ := ⟨hr, rfl⟩
    obtain ⟨k, -, hemits⟩ := Goal.exists_emitsAt hp.pure hg.pure hs hoverflow hreaches
    have hsolver := hs.solver_of_unifyAll hr
    exact .inl ⟨k, _, τ, hemits, hτ, hagree, (hsolver.satisfies_iff τ).2 ⟨hstore, hsolves⟩⟩

/-- Where `l` is bound to `(,v0 . ,z)`, the first component of `l` can be `a`, which the second part of a
disjunction says, and the search finds that. -/
theorem search_sound_and_complete_caro :
    let s : State := ⟨Store.empty.push ⟨"l"⟩ (.pair (.var (.fresh 0)) (.named "z")), 1⟩
    let g := Goal.conj (.call .caro [.named "l", .named "q"])
      (.disj (.eq (.named "q") (.sym "b")) (.eq (.named "q") (.sym "a")))
    let σ : Valuation := Function.update (fun _ => .sym "a") ⟨"l"⟩ (.pair (.sym "a") (.sym "a"))
    Valuation.Satisfies σ s.store ∧ Holds [] σ σ g ∧ g.Finds [] 1 s σ := by
  intro s g σ
  have hs : s.store.Acyclic := Store.acyclic_empty.push rfl (by decide)
  have hold : s.store.All (Var.Older 1) :=
    (Store.all_empty _).push (Var.older_of_head_ne (by decide) 1) fun y hy => by
      obtain rfl | rfl : y = .fresh 0 ∨ y = ⟨"z"⟩ := by simpa [Term.named] using hy
      · exact Var.older_fresh Nat.zero_lt_one
      · exact Var.older_of_head_ne (by decide) 1
  have hg : g.Admissible [] 1 := by
    refine ⟨⟨trivial, trivial, trivial⟩, ⟨Nat.le_refl 2, trivial, trivial⟩, fun x hx => ?_⟩
    obtain rfl | rfl : x = ⟨"l"⟩ ∨ x = ⟨"q"⟩ := by revert x; decide
    · exact Var.older_of_head_ne (by decide) 1
    · exact Var.older_of_head_ne (by decide) 1
  have hσ : ∀ x, (σ x).Ground := by
    intro x
    by_cases hx : x = ⟨"l"⟩
    · rw [hx]
      rfl
    · have hσx : σ x = .sym "a" := Function.update_of_ne hx ..
      rw [hσx]
      rfl
  have hsat : Valuation.Satisfies σ s.store := (Store.satisfies_push rfl).2 ⟨nofun, rfl⟩
  have hholds : Holds [] σ σ g := .conj (.call (.fresh (t := .sym "a") rfl (.eq rfl))) (.right (.eq rfl))
  let r := (s.store.push ⟨"q"⟩ (.var (.fresh 0))).push (.fresh 1) (.named "z")
  have hsteps : g.steps [] 1 s 4 = .value [.force, .emit ⟨r.push (.fresh 0) (.sym "b"), 2⟩,
      .emit ⟨r.push (.fresh 0) (.sym "a"), 2⟩, .stop] [] := by decide +kernel
  have hends : ¬ g.Overflows [] 1 s := Goal.not_overflows_of_stop_mem hsteps (by simp)
  have hsearch := (search_sound_and_complete (n := 0) (Program.admissible_nil 1) hg hs hold hσ hsat).2
    hholds
  exact ⟨hsat, hholds, hsearch.resolve_right hends⟩

/-- At the largest counter a goal that is true emits no state: its disjunction is applied as a whole,
and no variable can be allocated in the second part. -/
theorem not_emitsAt_counterMax :
    Program.Admissible [] counterMax ∧
      Goal.Admissible [] counterMax (.disj .succeed (.fresh ⟨"x"⟩ .fail)) ∧
      Store.empty.Acyclic ∧ Store.empty.All (Var.Older counterMax) ∧
      Valuation.Satisfies (fun _ => .nil) .empty ∧
      Holds [] (fun _ => .nil) (fun _ => .nil) (.disj .succeed (.fresh ⟨"x"⟩ .fail)) ∧
      ∀ rounds k b,
        ¬ Goal.EmitsAt [] rounds (.disj .succeed (.fresh ⟨"x"⟩ .fail)) ⟨.empty, counterMax⟩ k b := by
  refine ⟨Program.admissible_nil _, ⟨⟨trivial, trivial⟩, ⟨trivial, trivial⟩, fun _ h => nomatch h⟩,
    Store.acyclic_empty, Store.all_empty _, (fun _ _ h => nomatch h), .left .succeed,
    fun rounds k b h => ?_⟩
  obtain ⟨answers, events, hanswers⟩ := h.exists_answers
  cases rounds with
  | zero => cases hanswers
  | succ n =>
    have hfault : Goal.answers [] (n + 1) (.disj .succeed (.fresh ⟨"x"⟩ .fail))
        ⟨.empty, counterMax⟩ = .fault .overflow := rfl
    rw [hfault] at hanswers
    cases hanswers

end Relational
