import Relational.Proofs.Store.Canonical
import Relational.Proofs.Term.RoundTrip

/-!
# Variants

What is shown of a term is a canonical form. It has no variables (`Term.canonical_ground`), and it is
the same for two terms precisely when one is the other with its variables renamed, different ones
differently (`Term.canonical_eq_iff`), as long as no symbol of theirs looks like a canonical name. From
two terms of one canonical form the renaming is read off place by place: where one has a variable, the
other has one of the same number (`Term.eq_rename_of_mapVars_eq`). That different variables are renamed
differently then needs no argument of its own, since the terms can be exchanged.
-/

namespace Relational

theorem reifiedName_inj {m n : Nat} (h : reifiedName m = reifiedName n) : m = n :=
  eq_of_append_repr (Term.sym.inj h)

namespace Term

variable {a b : Term}

/-- No symbol of the term is a canonical name. -/
def NameFree (t : Term) : Prop := ∀ text ∈ t.symbols, ∀ n, sym text ≠ reifiedName n

theorem nameFree_pair : (pair a b).NameFree ↔ a.NameFree ∧ b.NameFree := List.forall_mem_append

/-- A canonical form has no variables. -/
theorem canonical_ground (t : Term) : t.canonical.Ground := by
  refine List.eq_nil_iff_forall_not_mem.2 fun y hy => ?_
  obtain ⟨x, -, hyx⟩ := mem_vars_mapVars.1 hy
  cases hyx

/-- Two terms that become equal when their variables are numbered differ in their variables alone: the
second one is the first one under every renaming that goes by the numbers. -/
theorem eq_rename_of_mapVars_eq {i j : Var → Nat} {f : Var → Var} (ha : a.NameFree) (hb : b.NameFree)
    (hf : ∀ x ∈ a.vars, ∀ y ∈ b.vars, i x = j y → f x = y)
    (h : (a.mapVars fun x => reifiedName (i x)) = b.mapVars fun y => reifiedName (j y)) :
    b = a.mapVars fun x => var (f x) := by
  induction a generalizing b with
  | nil =>
    cases b with
    | nil => rfl
    | sym | var | pair => simp [reifiedName] at h
  | sym text =>
    cases b with
    | nil | pair => simp at h
    | sym => exact h.symm
    | var y => exact absurd h (ha text (by simp [symbols]) (j y))
  | var x =>
    cases b with
    | nil | pair => simp [reifiedName] at h
    | sym text => exact absurd h.symm (hb text (by simp [symbols]) (i x))
    | var y => exact congrArg var (hf x (by simp) y (by simp) (reifiedName_inj h)).symm
  | pair a₁ a₂ ih₁ ih₂ =>
    cases b with
    | nil | sym | var => simp [reifiedName] at h
    | pair b₁ b₂ =>
      obtain ⟨ha₁, ha₂⟩ := nameFree_pair.1 ha
      obtain ⟨hb₁, hb₂⟩ := nameFree_pair.1 hb
      rw [mapVars_pair, mapVars_pair] at h
      injection h with h₁ h₂
      rw [mapVars_pair,
        ← ih₁ ha₁ hb₁ (fun x hx y hy => hf x (by simp [hx]) y (by simp [hy])) h₁,
        ← ih₂ ha₂ hb₂ (fun x hx y hy => hf x (by simp [hx]) y (by simp [hy])) h₂]

/-- Terms of one canonical form are renamed terms of each other. -/
theorem exists_rename_of_canonical_eq (ha : a.NameFree) (hb : b.NameFree)
    (h : a.canonical = b.canonical) : ∃ f : Var → Var, b = a.mapVars fun x => var (f x) := by
  let xs := Var.distinctFrom [] a.vars
  let ys := Var.distinctFrom [] b.vars
  -- the variable of the same number
  refine ⟨fun x => ys[xs.idxOf x]?.getD x, eq_rename_of_mapVars_eq ha hb (fun x _ y hy hxy => ?_) h⟩
  have hy : y ∈ ys := Var.mem_distinctFrom.2 (.inr hy)
  have hplace : ys[xs.idxOf x]? = some y := by
    rw [show xs.idxOf x = ys.idxOf y from hxy, List.getElem?_idxOf hy]
  simp only [hplace, Option.getD_some]

/-- Terms have one canonical form precisely when they differ in the names of their variables alone. -/
theorem canonical_eq_iff (ha : a.NameFree) (hb : b.NameFree) :
    a.canonical = b.canonical ↔
      ∃ f : Var → Var, Set.InjOn f {x | x ∈ a.vars} ∧ b = a.mapVars fun x => var (f x) := by
  constructor
  · intro h
    obtain ⟨f, hf⟩ := exists_rename_of_canonical_eq ha hb h
    obtain ⟨g, hg⟩ := exists_rename_of_canonical_eq hb ha h.symm
    have hback : ∀ x ∈ a.vars, g (f x) = x := by
      intro x hx
      rw [hf, mapVars_mapVars] at hg
      exact var.inj (eq_of_mapVars_eq (hg.symm.trans (mapVars_var_self a).symm) hx)
    refine ⟨f, fun x hx y hy hxy => ?_, hf⟩
    rw [← hback x hx, hxy, hback y hy]
  · rintro ⟨f, hf, rfl⟩
    exact (canonical_rename hf).symm

end Term

/-! ## The main statement -/

namespace Store

/-- In an acyclic store a term is shown as the term with all bindings applied, in which each variable is
replaced by the canonical name of its place among the distinct variables, in the order of their first
occurrence; no variable is left. Two terms without canonical names are shown alike in the empty store
precisely when one is the other with its variables renamed, different ones differently. -/
theorem reify_canonical :
    (∀ s : Store, s.Acyclic → ∀ t, ∃ a xs, s.walkStar t = .ok a ∧ Var.FirstOccurrences a.vars xs ∧
      s.reify t = .ok (a.mapVars fun x => reifiedName (xs.idxOf x)) ∧
      (a.mapVars fun x => reifiedName (xs.idxOf x)).vars = []) ∧
    ∀ a b : Term, a.NameFree → b.NameFree →
      ∃ c d, empty.reify a = .ok c ∧ empty.reify b = .ok d ∧
        (c = d ↔ ∃ f : Var → Var, Set.InjOn f {x | x ∈ a.vars} ∧ b = a.mapVars fun x => .var (f x)) := by
  have hempty : ∀ t : Term, empty.reify t = .ok t.canonical := fun t => by
    rw [acyclic_empty.reify_eq, mapVars_solution_empty]
  refine ⟨fun s hs t => ?_, fun a b ha hb => ?_⟩
  · exact ⟨_, _, hs.walkStar_eq t, Var.firstOccurrences_distinctFrom _, hs.reify_eq t,
      Term.canonical_ground _⟩
  · exact ⟨_, _, hempty a, hempty b, Term.canonical_eq_iff ha hb⟩

/-- Where `x` is bound to `(,y . ,z)`, the term `(,z ,x . ,y)` is shown as `(_.0 (_.1 . _.0) . _.1)`. In
the empty store `(,p . ,q)` and `(,q . ,p)` are shown alike, and `(,p . ,p)` is shown differently. -/
theorem reify_canonical_exchanged :
    let s := empty.push ⟨"x"⟩ (.pair (.named "y") (.named "z"))
    let t := Term.listWithTail [.named "z", .named "x"] (.named "y")
    let shown := Term.listWithTail [reifiedName 0, .pair (reifiedName 1) (reifiedName 0)]
      (reifiedName 1)
    let couple := fun x y : String => Term.pair (.named x) (.named y)
    s.Acyclic ∧ s.reify t = .ok shown ∧ shown.vars = [] ∧ (∀ x y, (couple x y).NameFree) ∧
      empty.reify (couple "p" "q") = empty.reify (couple "q" "p") ∧
      empty.reify (couple "p" "q") ≠ empty.reify (couple "p" "p") := by
  intro s t shown couple
  have hs : s.Acyclic := acyclic_empty.push rfl (by decide)
  have hshown : s.reify t = .ok shown := by decide +kernel
  obtain ⟨a, xs, -, -, hreify, hground⟩ := reify_canonical.1 s hs t
  rw [Except.ok.inj (hreify.symm.trans hshown)] at hground
  have hfree : ∀ x y, (couple x y).NameFree := fun _ _ _ h => nomatch h
  refine ⟨hs, hshown, hground, hfree, ?_, fun h => ?_⟩
  · obtain ⟨c, d, hc, hd, hcd⟩ := reify_canonical.2 _ _ (hfree "p" "q") (hfree "q" "p")
    have halike : c = d := hcd.2 ⟨Equiv.swap ⟨"p"⟩ ⟨"q"⟩, (Equiv.injective _).injOn, by decide +kernel⟩
    rw [hc, hd, halike]
  · obtain ⟨c, d, hc, hd, hcd⟩ := reify_canonical.2 _ _ (hfree "p" "q") (hfree "p" "p")
    obtain ⟨f, hf, hrename⟩ := hcd.1 (Except.ok.inj (hc.symm.trans (h.trans hd)))
    rw [Term.mapVars_pair] at hrename
    injection hrename with hp hq
    have hpq : f ⟨"p"⟩ = f ⟨"q"⟩ := Term.var.inj (hp.symm.trans hq)
    have hmem : (⟨"p"⟩ : Var) ∈ (couple "p" "q").vars ∧ ⟨"q"⟩ ∈ (couple "p" "q").vars := by decide
    exact absurd (hf hmem.1 hmem.2 hpq) (by decide)

end Store

end Relational
