import Mathlib.Data.List.Forall2
import Relational.Proofs.Store.Canonical
import Relational.Proofs.Store.Equations

/-!
# The order and the direction of equations

A system of equations may be written down in another order, and each of its equations the other way
round (`Equations.Reordered`). Unification then goes another way: it binds other variables, in other
directions, and fails at another equation when it fails. But both systems have the same solutions
(`solves_reordered`), and the solutions decide whether there is a store and how a term is shown in
it. So neither depends on how the system was written: that is `unifyAll_reordered`.
-/

namespace Relational

variable {es fs : Equations} {σ : Valuation}

/-- The second system has the equations of the first one in some order, each with its sides as they
are or exchanged. -/
def Equations.Reordered (es fs : Equations) : Prop :=
  ∃ ms, es.Perm ms ∧ List.Forall₂ (fun e f => f = e ∨ f = e.swap) ms fs

/-- Exchanging the sides of equations changes none of their solutions. -/
theorem Valuation.solves_of_forall₂_swap (h : List.Forall₂ (fun e f => f = e ∨ f = e.swap) es fs) :
    σ.Solves es ↔ σ.Solves fs := by
  induction h with
  | nil => rfl
  | @cons e f es fs hef _ ih =>
    have hside : e.1.mapVars σ = e.2.mapVars σ ↔ f.1.mapVars σ = f.2.mapVars σ := by
      rcases hef with rfl | rfl
      · rfl
      · exact eq_comm
    rw [solves_cons, solves_cons, hside, ih]

/-- Systems that differ in the order and the direction of their equations have the same solutions. -/
theorem Valuation.solves_reordered (h : es.Reordered fs) : σ.Solves es ↔ σ.Solves fs := by
  obtain ⟨ms, hperm, hswap⟩ := h
  rw [← solves_of_forall₂_swap hswap]
  exact forall_congr' fun e => imp_congr_left hperm.mem_iff

namespace Store

variable {s r q : Store} {o : Option Store}

/-- The outcome of a system in an acyclic store is a store precisely when the system has a solution
that satisfies the store. -/
theorem Acyclic.isSome_unifyAll_iff (hs : s.Acyclic) (h : s.unifyAll es = .ok o) :
    o.isSome ↔ ∃ σ : Valuation, σ.Satisfies s ∧ σ.Solves es := by
  rw [← hs.exists_unifyAll_iff es, h, Option.isSome_iff_exists]
  simp only [Except.ok.injEq]

/-- Stores that solve systems with the same solutions show every term in the same way. -/
theorem Solver.reify_eq (hr : Solver s es r) (hq : Solver s fs q)
    (h : ∀ σ : Valuation, σ.Solves es ↔ σ.Solves fs) (t : Term) : r.reify t = q.reify t := by
  refine hr.acyclic.reify_eq_of_satisfies_iff hq.acyclic (Equiv.refl Var) (fun σ => ?_)
    fun _ _ => rfl
  rw [hq.satisfies_iff, ← h, ← hr.satisfies_iff, Equiv.coe_refl, Function.comp_id]

/-- In an acyclic store two systems that differ in the order and the direction of their equations
have outcomes of the same kind, and where both give a store, the two stores show every term in the
same way. -/
theorem unifyAll_reordered (s : Store) (hs : s.Acyclic) (es fs : Equations)
    (h : es.Reordered fs) :
    ∃ o o', s.unifyAll es = .ok o ∧ s.unifyAll fs = .ok o' ∧ o.isSome = o'.isSome ∧
      ∀ r q, o = some r → o' = some q → ∀ t, ∃ a, r.reify t = .ok a ∧ q.reify t = .ok a := by
  have houtcome : ∀ es, ∃ o, s.unifyAll es = .ok o := fun es =>
    (hs.unifyAll_eq es).elim (fun ⟨r, hr, _⟩ => ⟨some r, hr⟩) fun ⟨hnone, _⟩ => ⟨none, hnone⟩
  have hsolves : ∀ σ : Valuation, σ.Solves es ↔ σ.Solves fs := fun _ => Valuation.solves_reordered h
  obtain ⟨o, ho⟩ := houtcome es
  obtain ⟨o', ho'⟩ := houtcome fs
  refine ⟨o, o', ho, ho', ?_, ?_⟩
  · rw [Bool.eq_iff_iff, hs.isSome_unifyAll_iff ho, hs.isSome_unifyAll_iff ho']
    simp only [hsolves]
  · rintro r q rfl rfl t
    have hr := hs.solver_of_unifyAll ho
    have hq := hs.solver_of_unifyAll ho'
    exact ⟨_, hr.acyclic.reify_eq t, (hr.reify_eq hq hsolves t).symm.trans (hr.acyclic.reify_eq t)⟩

/-- Where `y` is bound to `(,z . ,z)`, the equations of `,x` with `,y` and of `,z` with `,w` are solved
by a binding of `z`, and the other way round by a binding of `w`. Both stores show all terms alike. -/
theorem unifyAll_reordered_pair :
    let s := empty.push ⟨"y"⟩ (.pair (.named "z") (.named "z"))
    let es := [(.named "x", .named "y"), (.named "z", .named "w")]
    let fs := [(.named "w", .named "z"), (.named "y", .named "x")]
    let r := (s.push ⟨"x"⟩ (.pair (.named "z") (.named "z"))).push ⟨"z"⟩ (.named "w")
    let q := (s.push ⟨"w"⟩ (.named "z")).push ⟨"x"⟩ (.pair (.named "z") (.named "z"))
    s.Acyclic ∧ Equations.Reordered es fs ∧ s.unifyAll es = .ok (some r) ∧
      s.unifyAll fs = .ok (some q) ∧ r ≠ q ∧
      ∀ t, ∃ a, r.reify t = .ok a ∧ q.reify t = .ok a := by
  intro s es fs r q
  have hs : s.Acyclic := acyclic_empty.push rfl (by decide)
  have hreordered : Equations.Reordered es fs :=
    ⟨es.reverse, (List.reverse_perm es).symm, .cons (.inr rfl) (.cons (.inr rfl) .nil)⟩
  have hr : s.unifyAll es = .ok (some r) := by decide +kernel
  have hq : s.unifyAll fs = .ok (some q) := by decide +kernel
  obtain ⟨o, o', ho, ho', -, hshown⟩ := unifyAll_reordered s hs es fs hreordered
  exact ⟨hs, hreordered, hr, hq, by decide +kernel,
    hshown r q (Except.ok.inj (ho.symm.trans hr)) (Except.ok.inj (ho'.symm.trans hq))⟩

end Store

end Relational
