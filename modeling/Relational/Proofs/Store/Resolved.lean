import Relational.Proofs.Store.Extension

/-!
# Resolved terms

What a term stands for in a store can be said without a budget, and without the way in which a list is
gone along: a bound variable resolves to what its value resolves to, a pair to the pair of what its
components resolve to, and all else to itself (`Store.Resolves`). `walkStar` goes along the spine of a
list, also where it continues behind a bound variable, and puts the items before what it comes to in the
end; in whatever store it has an answer, the answer is the resolved term (`resolves_of_walkStar`). In an
acyclic store it always has one, in which no bound variable is left, and the occurs check tells which
variables it has (`walkStar_resolves`).
-/

namespace Relational.Store

variable {s : Store} {x : Var} {t a b : Term}

/-- The first term, with all bindings applied, is the second one. -/
inductive Resolves (s : Store) : Term → Term → Prop
  | nil : Resolves s .nil .nil
  | sym (text : String) : Resolves s (.sym text) (.sym text)
  | unbound {x : Var} (hx : s.lookup x = none) : Resolves s (.var x) (.var x)
  | bound {x : Var} {t a : Term} (hx : s.lookup x = some t) (h : Resolves s t a) :
    Resolves s (.var x) a
  | pair {t u a b : Term} (ht : Resolves s t a) (hu : Resolves s u b) :
    Resolves s (.pair t u) (.pair a b)

/-- A term resolves to one term at most. -/
theorem Resolves.unique (h : s.Resolves t a) (h' : s.Resolves t b) : a = b := by
  induction h generalizing b with
  | nil | sym =>
    cases h'
    rfl
  | unbound hx =>
    cases h' with
    | unbound => rfl
    | bound hx' => rw [hx] at hx'; cases hx'
  | bound hx _ ih =>
    cases h' with
    | unbound hx' => rw [hx] at hx'; cases hx'
    | bound hx' h' =>
      rw [hx] at hx'
      cases hx'
      exact ih h'
  | pair _ _ iht ihu =>
    cases h' with
    | pair ht' hu' => rw [iht ht', ihu hu']

/-- What comes out within a budget is the resolved term. -/
theorem resolves_of_walkStarWithin (s : Store) (n : Nat) :
    ∀ t a, s.walkStarWithin n [] t = .ok a → s.Resolves t a := by
  induction n with
  | zero => exact fun _ _ h => nomatch h
  | succ n ih =>
    intro t
    induction t with
    | nil =>
      intro a h
      cases h
      exact .nil
    | sym text =>
      intro a h
      cases h
      exact .sym text
    | var x =>
      intro a h
      rw [walkStarWithin_var] at h
      cases hx : s.lookup x with
      | none =>
        rw [hx] at h
        cases h
        exact .unbound hx
      | some u =>
        rw [hx] at h
        exact .bound hx (ih u a h)
    | pair t u iht ihu =>
      intro a h
      rw [walkStarWithin_pair] at h
      cases ht : s.walkStarWithin (n + 1) [] t with
      | error e => rw [ht] at h; cases h
      | ok a₁ =>
        cases hu : s.walkStarWithin (n + 1) [] u with
        | error e => rw [ht, hu] at h; cases h
        | ok a₂ =>
          rw [ht, hu] at h
          cases h
          exact .pair (iht a₁ ht) (ihu a₂ hu)

theorem resolves_of_walkStar (h : s.walkStar t = .ok a) : s.Resolves t a :=
  s.resolves_of_walkStarWithin _ t a h

/-- With all bindings applied, a term has nothing left to which a binding could be applied. -/
theorem Acyclic.walkStar_mapVars_solution (hs : s.Acyclic) (t : Term) :
    s.walkStar (t.mapVars s.solution) = .ok (t.mapVars s.solution) := by
  rw [hs.walkStar_eq, hs.mapVars_solution hs.solution_satisfies]

/-- In an acyclic store applying all bindings to a term leads to the term that it resolves to, and to no
other. No bound variable is left there, applying the bindings once more changes nothing, and the
variables that occur are those that the occurs check finds. -/
theorem walkStar_resolves (s : Store) (hs : s.Acyclic) (t : Term) (x : Var) :
    ∃ a, s.walkStar t = .ok a ∧ (∀ b, s.Resolves t b ↔ b = a) ∧
      (∀ y ∈ a.vars, s.lookup y = none) ∧ s.walkStar a = .ok a ∧
      s.occurs x t = .ok (decide (x ∈ a.vars)) := by
  have ha := hs.walkStar_eq t
  refine ⟨_, ha, fun b => ⟨fun hb => hb.unique (resolves_of_walkStar ha), fun hb => ?_⟩,
    hs.unbound_of_mem_vars t, hs.walkStar_mapVars_solution t, hs.occurs_eq x t⟩
  exact hb ▸ resolves_of_walkStar ha

/-- Where `x` is bound to `(a . ,y)` and `y` to `(b . ,z)`, the list `(,x . ,x)` goes on behind its first
pair, twice. It resolves to `((a b . ,z) a b . ,z)`, in which `z` occurs. -/
theorem walkStar_resolves_spine :
    let s := (empty.push ⟨"y"⟩ (.pair (.sym "b") (.named "z"))).push ⟨"x"⟩
      (.pair (.sym "a") (.named "y"))
    let c := Term.listWithTail [.sym "a", .sym "b"] (.named "z")
    s.Acyclic ∧ s.Resolves (.pair (.named "x") (.named "x")) (.pair c c) ∧
      s.walkStar (.pair c c) = .ok (.pair c c) ∧
      s.occurs ⟨"z"⟩ (.pair (.named "x") (.named "x")) = .ok true := by
  intro s c
  have hs : s.Acyclic := (acyclic_empty.push rfl (by decide)).push rfl (by decide +kernel)
  have hc : s.walkStar (.pair (.named "x") (.named "x")) = .ok (.pair c c) := by decide +kernel
  obtain ⟨a, ha, hresolves, -, hagain, hoccurs⟩ :=
    walkStar_resolves s hs (.pair (.named "x") (.named "x")) ⟨"z"⟩
  rw [hc] at ha
  cases ha
  exact ⟨hs, (hresolves _).2 rfl, hagain, hoccurs⟩

end Relational.Store
