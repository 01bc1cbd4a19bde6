import Relational.Proofs.Store.Agreement

/-!
# Relevance of unification

Unification touches nothing but the variables that are open in the two terms with all bindings applied
(`Store.Involves`): it binds such variables, and in their values no others are open. On the way through
the terms, bindings are made in stores that have grown already, and lead through one another; but what a
unifier binds can be read off the valuations that satisfy it. A variable that is not involved can have
any value in one of these (`Unifier.exists_satisfies`). So it is not bound, since a bound variable
has the value of its term (`Unifier.involves`), and it is not open in the value of a bound variable,
since that would have to grow with it (`Unifier.involves_of_mem_vars`). All of this together is
`unify_relevant`.
-/

namespace Relational.Store

variable {s r : Store} {u v t : Term} {x y : Var}

/-- The variable is open in one of the two terms with all bindings applied. -/
def Involves (s : Store) (u v : Term) (x : Var) : Prop :=
  x ∈ (u.mapVars s.solution).vars ∨ x ∈ (v.mapVars s.solution).vars

/-- Whatever the open variables stand for, a store is satisfied when all others stand for what the
bindings make of that. -/
theorem Acyclic.satisfies_mapVars_solution (hs : s.Acyclic) (ρ : Valuation) :
    Valuation.Satisfies (fun z => (s.solution z).mapVars ρ) s := by
  intro x t hx
  calc (s.solution x).mapVars ρ = (t.mapVars s.solution).mapVars ρ := by rw [hs.solution_of_bound hx]
    _ = t.mapVars fun z => (s.solution z).mapVars ρ := Term.mapVars_mapVars _ ρ t

/-- An unbound variable that is not among the new ones stays unbound. -/
theorem lookup_eq_none_of_added {added : List (Var × Term)} (hadded : r.bindings = added ++ s.bindings)
    (hx : s.lookup x = none) (hnew : ∀ e ∈ added, e.1 ≠ x) : r.lookup x = none := by
  have hadded_none : added.lookup x = none :=
    List.lookup_eq_none_iff.2 fun e he => bne_iff_ne.2 (hnew e he).symm
  rw [lookup, hadded, List.lookup_append, hadded_none, Option.none_or]
  exact hx

namespace Unifier

/-- The solution of a unifier satisfies the store that it extends. -/
theorem satisfies (h : Unifier s u v r) : Valuation.Satisfies r.solution s :=
  ((h.satisfies_iff _).1 h.acyclic.solution_satisfies).1

/-- Among the valuations that satisfy a unifier there is one that gives a variable that is not involved
any given value, and leaves the other variables that were unbound with their values in the solution. -/
theorem exists_satisfies (h : Unifier s u v r) (hs : s.Acyclic) (hy : s.lookup y = none)
    (hinvolves : ¬ s.Involves u v y) (w : Term) :
    ∃ τ : Valuation, τ.Satisfies r ∧ τ y = w ∧
      ∀ z, s.lookup z = none → z ≠ y → τ z = r.solution z := by
  let ρ : Valuation := fun z => if z = y then w else r.solution z
  let τ : Valuation := fun z => (s.solution z).mapVars ρ
  have hkeep : ∀ t : Term, y ∉ (t.mapVars s.solution).vars → t.mapVars τ = t.mapVars r.solution := by
    intro t ht
    calc t.mapVars τ = (t.mapVars s.solution).mapVars ρ := (Term.mapVars_mapVars _ ρ t).symm
      _ = (t.mapVars s.solution).mapVars r.solution := Term.mapVars_congr fun z hz =>
        if_neg (ne_of_mem_of_not_mem hz ht)
      _ = t.mapVars r.solution := hs.mapVars_solution h.satisfies t
  have hopen : ∀ z, s.lookup z = none → τ z = ρ z := by
    intro z hz
    simp only [τ, solution_of_unbound hz, Term.mapVars_var]
  obtain ⟨hu, hv⟩ := not_or.1 hinvolves
  refine ⟨τ, (h.satisfies_iff τ).2 ⟨hs.satisfies_mapVars_solution ρ, ?_⟩, ?_, fun z hz hzy => ?_⟩
  · rw [hkeep u hu, hkeep v hv, h.mapVars_solution_eq]
  · rw [hopen y hy]
    exact if_pos rfl
  · rw [hopen z hz]
    exact if_neg hzy

/-- A variable that a unifier binds is involved. -/
theorem involves (h : Unifier s u v r) (hs : s.Acyclic) (hx : s.lookup x = none)
    (hbound : r.lookup x = some t) : s.Involves u v x := by
  by_contra hno
  obtain ⟨τ, hτ, hτx, hopen⟩ :=
    h.exists_satisfies hs hx hno (.pair (r.solution x) .nil)
  have hvalue : (Term.var x).mapVars τ = (Term.var x).mapVars r.solution := by
    refine h.acyclic.mapVars_eq_solution hτ fun z hz => ?_
    have hzr : r.lookup z = none := h.acyclic.unbound_of_mem_vars _ z hz
    have hzx : z ≠ x := by
      rintro rfl
      rw [hbound] at hzr
      cases hzr
    rw [hopen z (h.grows.lookup_eq_none hzr) hzx, solution_of_unbound hzr]
  rw [Term.mapVars_var, Term.mapVars_var, hτx] at hvalue
  have hsize := congrArg Term.size hvalue
  rw [Term.size_pair] at hsize
  omega

/-- The variables that are open in the value of a newly bound variable are involved. -/
theorem involves_of_mem_vars (h : Unifier s u v r) (hs : s.Acyclic) (hx : s.lookup x = none)
    (hbound : r.lookup x = some t) (hy : y ∈ (t.mapVars s.solution).vars) : s.Involves u v y := by
  by_contra hno
  have hxy : x ≠ y := by
    rintro rfl
    exact hno (h.involves hs hx hbound)
  obtain ⟨τ, hτ, hτy, hopen⟩ := h.exists_satisfies hs (hs.unbound_of_mem_vars t y hy) hno
    (.pair (r.solution x) .nil)
  have hτs : τ.Satisfies s := ((h.satisfies_iff τ).1 hτ).1
  -- the value of `x` does not depend on `y`, but has the value of `y` within
  have hsize := Term.size_le_of_mem_vars τ hy
  rw [hs.mapVars_solution hτs, ← hτ x t hbound, hopen x hx hxy, hτy, Term.size_pair] at hsize
  omega

/-- A term in which nothing newly bound is open stands for what it stood for. -/
theorem mapVars_solution_eq_of_open (h : Unifier s u v r) (hs : s.Acyclic)
    (hopen : ∀ z ∈ (t.mapVars s.solution).vars, r.lookup z = none) :
    t.mapVars r.solution = t.mapVars s.solution :=
  hs.mapVars_eq_solution h.satisfies fun z hz => solution_of_unbound (hopen z hz)

end Unifier

/-! ## The main statement -/

/-- Two terms that are unified in an acyclic store lead to bindings of different variables, which are put
before those of the store. The variables were unbound and are open in one of the terms, as are the
variables that are open in their values. A term in which none of them is open stands for what it stood
for. -/
theorem unify_relevant (s : Store) (hs : s.Acyclic) (u v : Term) (r : Store)
    (hr : s.unify u v = .ok (some r)) :
    ∃ a b added, s.walkStar u = .ok a ∧ s.walkStar v = .ok b ∧
      r.bindings = added ++ s.bindings ∧ (added.map Prod.fst).Nodup ∧
      (∀ e ∈ added, s.lookup e.1 = none ∧ (e.1 ∈ a.vars ∨ e.1 ∈ b.vars) ∧
        ∃ c, s.walkStar e.2 = .ok c ∧ ∀ y ∈ c.vars, y ∈ a.vars ∨ y ∈ b.vars) ∧
      ∀ t, ∃ c, s.walkStar t = .ok c ∧ ((∀ e ∈ added, e.1 ∉ c.vars) → r.walkStar t = .ok c) := by
  obtain ⟨o, ho, h⟩ := hs.unify_eq u v
  rw [hr] at ho
  cases ho
  cases h with
  | solved h =>
    obtain ⟨added, hadded, hnodup, hlookup⟩ := h.grows.exists_added
    refine ⟨_, _, added, hs.walkStar_eq u, hs.walkStar_eq v, hadded, hnodup, fun e he => ?_,
      fun t => ⟨_, hs.walkStar_eq t, fun ht => ?_⟩⟩
    · have ⟨hunbound, hbound⟩ := hlookup e he
      exact ⟨hunbound, h.involves hs hunbound hbound, _, hs.walkStar_eq e.2,
        fun y hy => h.involves_of_mem_vars hs hunbound hbound hy⟩
    · have hopen : ∀ z ∈ (t.mapVars s.solution).vars, r.lookup z = none := fun z hz =>
        lookup_eq_none_of_added hadded (hs.unbound_of_mem_vars t z hz) fun e he =>
          (ne_of_mem_of_not_mem hz (ht e he)).symm
      rw [h.acyclic.walkStar_eq, h.mapVars_solution_eq_of_open hs hopen]

/-- Where `x` is bound to `(,y . ,y)` and `p` to `,q`, unifying `,x` with `(,z . (a . ,w))` binds `y` to
`,z` and then `z` to `(a . ,w)`. The term `(,p . ,w)` is not touched by that, although `w` is involved. -/
theorem unify_relevant_chain :
    let s := (empty.push ⟨"p"⟩ (.named "q")).push ⟨"x"⟩ (.pair (.named "y") (.named "y"))
    let v := Term.pair (.named "z") (.pair (.sym "a") (.named "w"))
    let added := [(⟨"z"⟩, .pair (.sym "a") (.named "w")), (⟨"y"⟩, .named "z")]
    ∃ r, s.Acyclic ∧ s.unify (.named "x") v = .ok (some r) ∧ r.bindings = added ++ s.bindings ∧
      r.walkStar (.pair (.named "p") (.named "w")) = .ok (.pair (.named "q") (.named "w")) := by
  intro s v added
  let r := (s.push ⟨"y"⟩ (.named "z")).push ⟨"z"⟩ (.pair (.sym "a") (.named "w"))
  have hs : s.Acyclic := (acyclic_empty.push rfl (by decide)).push rfl (by decide +kernel)
  have hr : s.unify (.named "x") v = .ok (some r) := by decide +kernel
  obtain ⟨-, -, added', -, -, hadded, -, -, hkeeps⟩ := unify_relevant s hs (.named "x") v r hr
  obtain rfl : added = added' := List.append_cancel_right hadded
  obtain ⟨c, hc, hkeep⟩ := hkeeps (.pair (.named "p") (.named "w"))
  have hresolved : s.walkStar (.pair (.named "p") (.named "w")) =
      .ok (.pair (.named "q") (.named "w")) := by decide +kernel
  cases hc.symm.trans hresolved
  exact ⟨r, hs, hr, hadded, hkeep (by decide)⟩

end Relational.Store
