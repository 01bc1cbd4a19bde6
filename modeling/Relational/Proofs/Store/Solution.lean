import Relational.Proofs.Store.Acyclic
import Relational.Proofs.Term.Valuation

/-!
# The solution of a store

A store is a system of equations, and a valuation satisfies it when it gives every bound variable
the value of its term. An acyclic store has a most general such valuation, `Store.solution`, which
leaves the unbound variables alone: it satisfies the store (`Acyclic.solution_satisfies`) and every
valuation that does factors through it (`Acyclic.mapVars_solution`). The operations that follow
bindings end in an acyclic store and are read off the solution: `walkStar` applies it
(`Acyclic.walkStar_eq`), `occurs` looks into what it gives (`Acyclic.occurs_eq`), and `walk` stops
at the first term that is no bound variable (`WalksTo`, `Acyclic.walk_eq`). So `walkStar` and
`occurs`, which look variables up on their way, come to the same as a walk at each term and what
they do at the term to which it leads (`Acyclic.walkStar_eq_walk`, `Acyclic.occurs_eq_walk`).
-/

namespace Relational

/-- The valuation gives every bound variable of the store the value of its term. -/
def Valuation.Satisfies (σ : Valuation) (s : Store) : Prop :=
  ∀ x t, s.lookup x = some t → σ x = t.mapVars σ

namespace Store

variable {s : Store} {x y : Var} {t a : Term} {σ : Valuation}

/-- The term of a variable with all bindings applied. -/
def solution (s : Store) : Valuation := fun x =>
  match s.walkStar (.var x) with
  | .ok t => t
  | .error _ => .var x

/-- The solution leaves an unbound variable alone. -/
theorem solution_of_unbound (hx : s.lookup x = none) : s.solution x = .var x := by
  simp only [solution, walkStar, pathBound, walkStarWithin_var, hx]

/-- The solution of a bound variable, as the budget of the store computes it. -/
theorem solution_of_walkStarWithin (hx : s.lookup x = some t) {u : Term}
    (h : s.walkStarWithin s.load [] t = .ok u) : s.solution x = u := by
  simp only [solution, walkStar, pathBound, walkStarWithin_var, hx, h]

/-- A bound variable has a positive depth. -/
theorem depth_pos (hx : s.lookup x = some t) : 0 < s.depth x := by
  classical
  exact Finset.card_pos.2 ⟨x, Finset.mem_filter.2 ⟨mem_domain_of_lookup hx, .refl⟩⟩

/-- Below a bound variable the budget shrinks by one. -/
theorem Acyclic.depth_lt_of_bound (hs : s.Acyclic) (hx : s.lookup x = some t) {n : Nat}
    (hn : s.depth x < n + 1) : (∀ y ∈ t.vars, s.depth y < n) ∧ 0 < n := by
  refine ⟨fun y hy => ?_, ?_⟩
  · have := hs.depth_lt ⟨t, hx, hy⟩
    omega
  · have := depth_pos hx
    omega

/-! ## Applying all bindings -/

/-- A budget above the depths of its variables suffices for a term. -/
theorem Acyclic.walkStarWithin_eq (hs : s.Acyclic) (t : Term) :
    ∀ n, (∀ x ∈ t.vars, s.depth x < n) → 0 < n →
      s.walkStarWithin n [] t = .ok (t.mapVars s.solution) := by
  induction t using hs.termInduction with
  | nil | sym =>
    intro n _ hn
    obtain ⟨n, rfl⟩ := Nat.exists_eq_succ_of_ne_zero hn.ne'
    rfl
  | pair a b iha ihb =>
    intro n hd hn
    have ha := iha n (fun x hx => hd x (by simp [hx])) hn
    have hb := ihb n (fun x hx => hd x (by simp [hx])) hn
    obtain ⟨n, rfl⟩ := Nat.exists_eq_succ_of_ne_zero hn.ne'
    rw [walkStarWithin_pair, ha, hb, Term.mapVars_pair]
    rfl
  | unbound x hx =>
    intro n _ hn
    obtain ⟨n, rfl⟩ := Nat.exists_eq_succ_of_ne_zero hn.ne'
    rw [walkStarWithin_var, hx, Term.mapVars_var, solution_of_unbound hx]
  | bound x u hx ih =>
    -- the solution has a budget of its own, for which the hypothesis is used once more
    have ⟨hload, hpos⟩ := hs.depth_lt_of_bound hx (s.depth_lt_pathBound x)
    have hsol := solution_of_walkStarWithin hx (ih s.load hload hpos)
    intro n hd hn
    obtain ⟨n, rfl⟩ := Nat.exists_eq_succ_of_ne_zero hn.ne'
    have ⟨hd', hn'⟩ := hs.depth_lt_of_bound hx (hd x (by simp))
    rw [walkStarWithin_var, hx, Term.mapVars_var, hsol]
    exact ih n hd' hn'

/-- The budget of a store suffices for every term. -/
theorem Acyclic.walkStar_eq (hs : s.Acyclic) (t : Term) :
    s.walkStar t = .ok (t.mapVars s.solution) :=
  hs.walkStarWithin_eq t _ (fun x _ => s.depth_lt_pathBound x) (Nat.succ_pos _)

/-- The solution gives a bound variable the value of its term. -/
theorem Acyclic.solution_of_bound (hs : s.Acyclic) (hx : s.lookup x = some t) :
    s.solution x = t.mapVars s.solution := by
  have ⟨hd, hn⟩ := hs.depth_lt_of_bound hx (s.depth_lt_pathBound x)
  exact solution_of_walkStarWithin hx (hs.walkStarWithin_eq t s.load hd hn)

/-- The solution satisfies the store. -/
theorem Acyclic.solution_satisfies (hs : s.Acyclic) : Valuation.Satisfies s.solution s :=
  fun _ _ h => hs.solution_of_bound h

/-- No bound variable is left when all bindings are applied. -/
theorem Acyclic.unbound_of_mem_vars (hs : s.Acyclic) (t : Term) :
    ∀ y ∈ (t.mapVars s.solution).vars, s.lookup y = none := by
  induction t using hs.termInduction with
  | nil | sym => exact fun _ hy => nomatch hy
  | pair a b iha ihb =>
    intro y hy
    rw [Term.mapVars_pair, Term.vars_pair, List.mem_append] at hy
    exact hy.elim (iha y) (ihb y)
  | unbound x hx =>
    intro y hy
    rw [Term.mapVars_var, solution_of_unbound hx, Term.vars_var, List.mem_singleton] at hy
    exact hy ▸ hx
  | bound x u hx ih => rwa [Term.mapVars_var, hs.solution_of_bound hx]

/-- Every valuation that satisfies the store factors through the solution. -/
theorem Acyclic.mapVars_solution (hs : s.Acyclic) (hσ : σ.Satisfies s) (t : Term) :
    (t.mapVars s.solution).mapVars σ = t.mapVars σ := by
  induction t using hs.termInduction with
  | nil | sym => rfl
  | pair a b iha ihb => rw [Term.mapVars_pair, Term.mapVars_pair, Term.mapVars_pair, iha, ihb]
  | unbound x hx => rw [Term.mapVars_var, solution_of_unbound hx]
  | bound x u hx ih => rw [Term.mapVars_var, hs.solution_of_bound hx, ih, Term.mapVars_var, hσ x u hx]

/-- A valuation that satisfies the store gives a term what the solution gives it, when it leaves alone
what is still open there. -/
theorem Acyclic.mapVars_eq_solution (hs : s.Acyclic) (hσ : σ.Satisfies s)
    (hopen : ∀ z ∈ (t.mapVars s.solution).vars, σ z = .var z) :
    t.mapVars σ = t.mapVars s.solution := by
  rw [← hs.mapVars_solution hσ t, Term.mapVars_eq_self hopen]

/-! ## The occurs check -/

theorem occursWithin_pair (s : Store) (x : Var) (n : Nat) (t u : Term) :
    s.occursWithin x (n + 1) (.pair t u) =
      match s.occursWithin x (n + 1) t with
      | .ok false => s.occursWithin x (n + 1) u
      | found => found := rfl

/-- A budget above the depths of its variables suffices for the occurs check of a term. -/
theorem Acyclic.occursWithin_eq (hs : s.Acyclic) (x : Var) (t : Term) :
    ∀ n, (∀ y ∈ t.vars, s.depth y < n) → 0 < n →
      s.occursWithin x n t = .ok (decide (x ∈ (t.mapVars s.solution).vars)) := by
  induction t using hs.termInduction with
  | nil | sym =>
    intro n _ hn
    obtain ⟨n, rfl⟩ := Nat.exists_eq_succ_of_ne_zero hn.ne'
    rfl
  | pair a b iha ihb =>
    intro n hd hn
    have ha := iha n (fun x hx => hd x (by simp [hx])) hn
    have hb := ihb n (fun x hx => hd x (by simp [hx])) hn
    obtain ⟨n, rfl⟩ := Nat.exists_eq_succ_of_ne_zero hn.ne'
    rw [occursWithin_pair, ha, hb, Term.mapVars_pair, Term.vars_pair]
    by_cases hx : x ∈ (a.mapVars s.solution).vars <;> simp [hx]
  | unbound y hy =>
    intro n _ hn
    obtain ⟨n, rfl⟩ := Nat.exists_eq_succ_of_ne_zero hn.ne'
    simp only [occursWithin, Term.searchVars, hy, Term.mapVars_var, solution_of_unbound hy,
      Term.vars_var, List.mem_singleton, eq_comm]
  | bound y u hy ih =>
    intro n hd hn
    obtain ⟨n, rfl⟩ := Nat.exists_eq_succ_of_ne_zero hn.ne'
    have ⟨hd', hn'⟩ := hs.depth_lt_of_bound hy (hd y (by simp))
    simp only [occursWithin, Term.searchVars, hy, Term.mapVars_var, hs.solution_of_bound hy]
    exact ih n hd' hn'

/-- The occurs check looks for the variable in the term with all bindings applied. -/
theorem Acyclic.occurs_eq (hs : s.Acyclic) (x : Var) (t : Term) :
    s.occurs x t = .ok (decide (x ∈ (t.mapVars s.solution).vars)) :=
  hs.occursWithin_eq x t _ (fun y _ => s.depth_lt_pathBound y) (Nat.succ_pos _)

/-! ## Following bindings -/

/-- The chain of bindings from the first term ends at the second one, which is no bound variable. -/
inductive WalksTo (s : Store) : Term → Term → Prop
  | stop {u : Term} (h : ∀ z, u = .var z → s.lookup z = none) : WalksTo s u u
  | follow {z : Var} {u b : Term} (hz : s.lookup z = some u) (h : WalksTo s u b) :
    WalksTo s (.var z) b

/-- A budget above the depths of its variables suffices to follow the bindings from a term. -/
theorem Acyclic.exists_walksTo (hs : s.Acyclic) (t : Term) :
    ∃ a, s.WalksTo t a ∧ ∀ n, (∀ x ∈ t.vars, s.depth x < n) → 0 < n → s.walkWithin n t = .ok a := by
  induction t using hs.termInduction with
  | nil | sym | pair =>
    refine ⟨_, .stop nofun, fun n _ hn => ?_⟩
    obtain ⟨n, rfl⟩ := Nat.exists_eq_succ_of_ne_zero hn.ne'
    rfl
  | unbound x hx =>
    refine ⟨_, .stop fun y hy => by cases hy; exact hx, fun n _ hn => ?_⟩
    obtain ⟨n, rfl⟩ := Nat.exists_eq_succ_of_ne_zero hn.ne'
    simp only [walkWithin, hx]
  | bound x u hx ih =>
    obtain ⟨a, hw, ha⟩ := ih
    refine ⟨a, .follow hx hw, fun n hd hn => ?_⟩
    obtain ⟨n, rfl⟩ := Nat.exists_eq_succ_of_ne_zero hn.ne'
    have ⟨hd', hn'⟩ := hs.depth_lt_of_bound hx (hd x (by simp))
    simp only [walkWithin, hx]
    exact ha n hd' hn'

/-- Following the bindings ends at a term that is no bound variable. -/
theorem Acyclic.walk_eq (hs : s.Acyclic) (t : Term) : ∃ a, s.walk t = .ok a ∧ s.WalksTo t a := by
  obtain ⟨a, hw, ha⟩ := hs.exists_walksTo t
  exact ⟨a, ha _ (fun x _ => s.depth_lt_pathBound x) (Nat.succ_pos _), hw⟩

namespace WalksTo

/-- The chain does not end at a bound variable. -/
theorem unbound (h : s.WalksTo t (.var x)) : s.lookup x = none := by
  generalize ha : Term.var x = a at h
  induction h with
  | stop h => exact h x ha.symm
  | follow _ _ ih => exact ih ha

/-- A valuation that satisfies the store gives both ends of the chain the same value. -/
theorem mapVars_eq (h : s.WalksTo t a) (hσ : σ.Satisfies s) : a.mapVars σ = t.mapVars σ := by
  induction h with
  | stop => rfl
  | follow hx _ ih => rw [ih, Term.mapVars_var, hσ _ _ hx]

/-- A chain that goes anywhere starts at a bound variable, and mentions lead from there to every
variable of its end. -/
theorem eq_or_reaches (h : s.WalksTo t a) :
    a = t ∨ ∃ x u, t = .var x ∧ s.lookup x = some u ∧
      ∀ y ∈ a.vars, Relation.TransGen s.Mentions x y := by
  induction h with
  | stop => exact .inl rfl
  | @follow x t a hx _ ih =>
    refine .inr ⟨x, t, rfl, hx, fun y hy => ?_⟩
    rcases ih with rfl | ⟨z, u, rfl, -, hreach⟩
    · exact .single ⟨_, hx, hy⟩
    · exact .head ⟨_, hx, by simp⟩ (hreach y hy)

end WalksTo

/-! ## One walk at a time -/

/-- All bindings are applied to a term by walking from it, and then to the components of the pair to
which that leads. -/
theorem Acyclic.walkStar_eq_walk (hs : s.Acyclic) (t : Term) :
    s.walkStar t = s.walk t >>= fun
      | .pair a b => s.walkStar a >>= fun a => s.walkStar b >>= fun b => .ok (a.pair b)
      | a => .ok a := by
  obtain ⟨a, ha, hwalk⟩ := hs.walk_eq t
  rw [ha, hs.walkStar_eq, ← hwalk.mapVars_eq hs.solution_satisfies]
  cases a with
  | nil | sym => rfl
  | var x =>
    rw [Term.mapVars_var, solution_of_unbound hwalk.unbound]
    rfl
  | pair a b =>
    show _ = s.walkStar a >>= fun a => s.walkStar b >>= fun b => .ok (a.pair b)
    rw [Term.mapVars_pair, hs.walkStar_eq a, hs.walkStar_eq b]
    rfl

/-- The occurs check walks from a term, and then goes through the components of the pair to which that
leads, the first one first. -/
theorem Acyclic.occurs_eq_walk (hs : s.Acyclic) (x : Var) (t : Term) :
    s.occurs x t = s.walk t >>= fun
      | .var y => .ok (decide (y = x))
      | .pair a b => s.occurs x a >>= fun found => if found then .ok true else s.occurs x b
      | _ => .ok false := by
  obtain ⟨a, ha, hwalk⟩ := hs.walk_eq t
  rw [ha, hs.occurs_eq, ← hwalk.mapVars_eq hs.solution_satisfies]
  cases a with
  | nil | sym => rfl
  | var y =>
    rw [Term.mapVars_var, solution_of_unbound hwalk.unbound, Term.vars_var]
    simp only [List.mem_singleton, eq_comm]
    rfl
  | pair a b =>
    show _ = s.occurs x a >>= fun found => if found then .ok true else s.occurs x b
    rw [Term.mapVars_pair, Term.vars_pair, hs.occurs_eq x a, hs.occurs_eq x b]
    by_cases hx : x ∈ (a.mapVars s.solution).vars <;> simp [hx, bind, Except.bind]

end Store

end Relational
