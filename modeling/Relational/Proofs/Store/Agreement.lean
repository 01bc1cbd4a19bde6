import Relational.Proofs.Store.MostGeneral

/-!
# Unification and applied bindings

Unification makes two terms equal under the bindings of the store that comes out of it, and it adds no
binding where the terms are equal under the bindings there are. For the second part it does not
matter on which path through the terms a binding would be made: a new binding is an equation that the
solution of the old store does not satisfy (`Extends.eq_of_satisfies`), while the store that comes out
says no more than the old one and the equation of the terms. Both parts together are `unify_agrees`.
-/

namespace Relational.Store

variable {s r : Store} {u v : Term}

/-- An acyclic extension that the solution of a store satisfies has no binding more. -/
theorem Extends.eq_of_satisfies (h : Extends s r) (hr : r.Acyclic)
    (hsol : Valuation.Satisfies s.solution r) : r = s := by
  cases h with
  | refl => rfl
  | @push q x t h hx =>
    -- what the extension makes of `x` has to stand for `x` again, but it consists of open variables
    have hback : ((Term.var x).mapVars (q.push x t).solution).mapVars s.solution = .var x := by
      rw [hr.mapVars_solution hsol, Term.mapVars_var, solution_of_unbound (h.lookup_eq_none hx)]
    obtain ⟨z, hz, hzx⟩ := Term.exists_var_of_mapVars_eq_var hback
    have hopen : (q.push x t).lookup z = none :=
      hr.unbound_of_mem_vars (.var x) z (by rw [hz]; simp)
    rw [solution_of_unbound ((h.push hx).lookup_eq_none hopen)] at hzx
    cases hzx
    rw [lookup_push_self] at hopen
    cases hopen

/-- A unifier makes the terms equal under its own bindings. -/
theorem Unifier.mapVars_solution_eq (h : Unifier s u v r) :
    u.mapVars r.solution = v.mapVars r.solution :=
  ((h.satisfies_iff _).1 h.acyclic.solution_satisfies).2

/-- Nothing is bound precisely when the terms are equal under the bindings there are. -/
theorem Acyclic.unify_eq_self_iff (hs : s.Acyclic) (u v : Term) :
    s.unify u v = .ok (some s) ↔ u.mapVars s.solution = v.mapVars s.solution := by
  obtain ⟨o, ho, h⟩ := hs.unify_eq u v
  rw [ho, Except.ok.injEq]
  constructor
  · rintro rfl
    cases h with
    | solved h => exact h.mapVars_solution_eq
  · intro heq
    cases h with
    | unsolvable h => exact absurd heq (h _ hs.solution_satisfies)
    | @solved r h =>
      have hsol : Valuation.Satisfies s.solution r :=
        (h.satisfies_iff _).2 ⟨hs.solution_satisfies, heq⟩
      rw [h.grows.eq_of_satisfies h.acyclic hsol]

/-- Two terms that have been unified in an acyclic store are equal under the bindings that come out of
that, and unifying them once more changes nothing; and unifying two terms leaves the store as it is
precisely when they are equal under its bindings. -/
theorem unify_agrees (s : Store) (hs : s.Acyclic) (u v : Term) :
    (∀ r, s.unify u v = .ok (some r) →
        (∃ a, r.walkStar u = .ok a ∧ r.walkStar v = .ok a) ∧ r.unify u v = .ok (some r)) ∧
      ∃ a b, s.walkStar u = .ok a ∧ s.walkStar v = .ok b ∧
        (s.unify u v = .ok (some s) ↔ a = b) := by
  refine ⟨fun r hr => ?_, _, _, hs.walkStar_eq u, hs.walkStar_eq v, hs.unify_eq_self_iff u v⟩
  obtain ⟨o, ho, h⟩ := hs.unify_eq u v
  rw [hr] at ho
  cases ho
  cases h with
  | solved h =>
    have heq := h.mapVars_solution_eq
    refine ⟨⟨_, h.acyclic.walkStar_eq u, ?_⟩, (h.acyclic.unify_eq_self_iff u v).2 heq⟩
    rw [h.acyclic.walkStar_eq v, heq]

/-- Where `x` is bound to `(,y . ,y)`, unifying `,x` with `(,z . a)` binds `y` to `,z` and then `z`,
which the second `,y` stands for by then, to `a`. Under these bindings both terms are `(a . a)`, and
once more nothing is bound, as for `,x` and `(,y . ,y)` at the start. -/
theorem unify_agrees_shared :
    let s := empty.push ⟨"x"⟩ (.pair (.named "y") (.named "y"))
    let r := (s.push ⟨"y"⟩ (.named "z")).push ⟨"z"⟩ (.sym "a")
    let v := Term.pair (.named "z") (.sym "a")
    s.Acyclic ∧ s.unify (.named "x") v = .ok (some r) ∧
      (∃ a, r.walkStar (.named "x") = .ok a ∧ r.walkStar v = .ok a) ∧
      r.unify (.named "x") v = .ok (some r) ∧
      s.unify (.named "x") (.pair (.named "y") (.named "y")) = .ok (some s) := by
  intro s r v
  have hs : s.Acyclic := acyclic_empty.push rfl (by decide)
  have hr : s.unify (.named "x") v = .ok (some r) := by decide +kernel
  have ⟨hequal, hagain⟩ := (unify_agrees s hs (.named "x") v).1 r hr
  obtain ⟨a, b, ha, hb, hiff⟩ :=
    (unify_agrees s hs (.named "x") (.pair (.named "y") (.named "y"))).2
  have hab : s.walkStar (.named "x") = s.walkStar (.pair (.named "y") (.named "y")) := by
    decide +kernel
  rw [ha, hb, Except.ok.injEq] at hab
  exact ⟨hs, hr, hequal, hagain, hiff.2 hab⟩

end Relational.Store
