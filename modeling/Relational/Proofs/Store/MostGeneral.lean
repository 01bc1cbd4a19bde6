import Relational.Proofs.Store.Extension
import Relational.Store.Unify

/-!
# Most general unifiers

Unification in an acyclic store always has an outcome, and the outcome is exact (`Unification`): a
store that a valuation satisfies precisely when it satisfies the old store and makes the two terms
equal, or the refusal of terms that no such valuation makes equal.

That the budget suffices is seen on the two paths that lead to the terms that meet (`Path`). A
variable followed on a path leads, by mentions, to all that comes later on it; a variable that is met
again would be on a cycle. So the variables followed on each of the paths are different, and there
are no more of them than the store and the terms have variables. The store grows on the way, and a
path stays a path in the grown store (`Path.grow`).
-/

namespace Relational.Store

open Relation

variable {s r q : Store} {u v a b c d : Term} {x : Var} {o : Option Store} {σ : Valuation}

/-! ## Outcomes -/

/-- The store `r` solves the equation of two terms in the store `s`: it extends `s` within the
variables of both, and says the same as `s` and the equation together. -/
structure Unifier (s : Store) (u v : Term) (r : Store) : Prop where
  acyclic : r.Acyclic
  grows : Extends s r
  all : ∀ P : Var → Prop, s.All P → (∀ x ∈ u.vars, P x) → (∀ x ∈ v.vars, P x) → r.All P
  satisfies_iff : ∀ σ : Valuation, σ.Satisfies r ↔ σ.Satisfies s ∧ u.mapVars σ = v.mapVars σ

/-- What comes out when two terms are unified in a store. -/
inductive Unification (s : Store) (u v : Term) : Option Store → Prop
  | solved {r : Store} (h : Unifier s u v r) : Unification s u v (some r)
  | unsolvable (h : ∀ σ : Valuation, σ.Satisfies s → u.mapVars σ ≠ v.mapVars σ) :
    Unification s u v none

/-- Nothing has to be added for terms that every valuation makes equal. -/
theorem Unifier.refl (hs : s.Acyclic) (h : ∀ σ : Valuation, u.mapVars σ = v.mapVars σ) :
    Unifier s u v s :=
  ⟨hs, .refl, fun _ hP _ _ => hP, fun σ => (and_iff_left (h σ)).symm⟩

theorem Unification.symm (h : Unification s u v o) : Unification s v u o := by
  cases h with
  | solved h =>
    refine .solved ⟨h.acyclic, h.grows, fun P hs hv hu => h.all P hs hu hv, fun σ => ?_⟩
    rw [h.satisfies_iff σ, eq_comm]
  | unsolvable h => exact .unsolvable fun σ hσ => (h σ hσ).symm

/-- Terms are unified by what they stand for. -/
theorem Unification.of_walksTo (hu : s.WalksTo u a) (hv : s.WalksTo v b)
    (h : Unification s a b o) : Unification s u v o := by
  cases h with
  | solved h =>
    refine .solved ⟨h.acyclic, h.grows,
      fun P hs hPu hPv => h.all P hs (hu.all hs hPu) (hv.all hs hPv), fun σ => ?_⟩
    rw [h.satisfies_iff σ]
    refine and_congr_right fun hσ => ?_
    rw [hu.mapVars_eq hσ, hv.mapVars_eq hσ]
  | unsolvable h =>
    refine .unsolvable fun σ hσ => ?_
    rw [← hu.mapVars_eq hσ, ← hv.mapVars_eq hσ]
    exact h σ hσ

/-- Two equations, one after the other, are the equation of two pairs. -/
theorem Unifier.pair (h : Unifier s a c r) (h' : Unification r b d o) :
    Unification s (.pair a b) (.pair c d) o := by
  have hvars : ∀ {P : Var → Prop} {t u : Term}, (∀ x ∈ (Term.pair t u).vars, P x) →
      (∀ x ∈ t.vars, P x) ∧ ∀ x ∈ u.vars, P x := fun h =>
    ⟨fun x hx => h x (by simp [hx]), fun x hx => h x (by simp [hx])⟩
  have hpair : ∀ σ : Valuation, (Term.pair a b).mapVars σ = (Term.pair c d).mapVars σ ↔
      a.mapVars σ = c.mapVars σ ∧ b.mapVars σ = d.mapVars σ := fun σ => by
    rw [Term.mapVars_pair, Term.mapVars_pair, Term.pair.injEq]
  cases h' with
  | solved h' =>
    refine .solved ⟨h'.acyclic, h.grows.trans h'.grows, fun P hs hu hv => ?_, fun σ => ?_⟩
    · exact h'.all P (h.all P hs (hvars hu).1 (hvars hv).1) (hvars hu).2 (hvars hv).2
    · rw [h'.satisfies_iff σ, h.satisfies_iff σ, hpair, and_assoc]
  | unsolvable h' =>
    refine .unsolvable fun σ hσ heq => ?_
    have ⟨hac, hbd⟩ := (hpair σ).1 heq
    exact h' σ ((h.satisfies_iff σ).2 ⟨hσ, hac⟩) hbd

/-- Pairs whose first components cannot become equal cannot either. -/
theorem Unification.pair_unsolvable (h : Unification s a c none) :
    Unification s (.pair a b) (.pair c d) none := by
  cases h with
  | unsolvable h =>
    refine .unsolvable fun σ hσ heq => h σ hσ ?_
    rw [Term.mapVars_pair, Term.mapVars_pair] at heq
    injection heq

/-! ## Binding a variable -/

/-- A term that is no bound variable is an open variable with all bindings applied only when it is
that variable. -/
theorem eq_var_of_mapVars_solution (hb : ∀ y, b = .var y → s.lookup y = none)
    (h : b.mapVars s.solution = .var x) : b = .var x := by
  obtain ⟨y, rfl, hy⟩ := Term.exists_var_of_mapVars_eq_var h
  rw [solution_of_unbound (hb y rfl)] at hy
  exact hy

/-- Binding an open variable to a different term that is no bound variable unifies the two. -/
theorem Acyclic.extend_eq (hs : s.Acyclic) (hx : s.lookup x = none) (hne : b ≠ .var x)
    (hb : ∀ y, b = .var y → s.lookup y = none) :
    ∃ o, s.extend x b = .ok o ∧ Unification s (.var x) b o := by
  rw [extend, if_neg hne, hs.occurs_eq]
  by_cases hocc : x ∈ (b.mapVars s.solution).vars
  · simp only [hocc, decide_true]
    refine ⟨none, rfl, .unsolvable fun σ hσ => ?_⟩
    rw [Term.mapVars_var, ← hs.mapVars_solution hσ b]
    exact Term.mapVars_ne_of_mem_vars σ hocc fun h => hne (eq_var_of_mapVars_solution hb h)
  · simp only [hocc, decide_false]
    refine ⟨_, rfl, .solved ⟨hs.push hx hocc, .push .refl hx, fun P hP hu hv => ?_, fun σ => ?_⟩⟩
    · exact hP.push (hu x (by simp)) hv
    · rw [satisfies_push hx, Term.mapVars_var]

/-- Binding an open variable to a term that is no variable unifies the term and the variable. -/
theorem Acyclic.extend_eq_symm (hs : s.Acyclic) (hx : s.lookup x = none) (hb : ∀ y, b ≠ .var y) :
    ∃ o, s.extend x b = .ok o ∧ Unification s b (.var x) o := by
  obtain ⟨o, ho, h⟩ := hs.extend_eq hx (hb x) fun y hy => absurd hy (hb y)
  exact ⟨o, ho, h.symm⟩

/-! ## Paths -/

/-- A path to the term `t` in a store of which the variables are in `V`: from every variable of
`followed` mentions lead to all variables of the term. -/
structure Path (s : Store) (V followed : Finset Var) (t : Term) : Prop where
  subset : followed ⊆ V
  vars : ∀ y ∈ t.vars, y ∈ V
  reaches : ∀ x ∈ followed, ∀ y ∈ t.vars, TransGen s.Mentions x y

namespace Path

variable {V A : Finset Var}

theorem start (h : ∀ y ∈ u.vars, y ∈ V) : Path s V ∅ u :=
  ⟨Finset.empty_subset V, h, fun _ hx => absurd hx (Finset.notMem_empty _)⟩

theorem first (h : Path s V A (.pair a b)) : Path s V A a :=
  ⟨h.subset, fun y hy => h.vars y (by simp [hy]), fun x hx y hy => h.reaches x hx y (by simp [hy])⟩

theorem second (h : Path s V A (.pair a b)) : Path s V A b :=
  ⟨h.subset, fun y hy => h.vars y (by simp [hy]), fun x hx y hy => h.reaches x hx y (by simp [hy])⟩

/-- A path stays a path when the store is extended. -/
theorem grow (h : Path s V A u) (hr : Extends s r) : Path r V A u :=
  ⟨h.subset, h.vars, fun x hx y hy => hr.reaches (h.reaches x hx y hy)⟩

theorem card_le (h : Path s V A u) : A.card ≤ V.card := Finset.card_le_card h.subset

/-- Following bindings lengthens the path by a variable that was not on it, unless the term is no
bound variable. -/
theorem follow (h : Path s V A u) (hs : s.Acyclic) (hV : s.All (· ∈ V)) (hw : s.WalksTo u a) :
    ∃ A', Path s V A' a ∧ A.card ≤ A'.card ∧ (a ≠ u → A.card < A'.card) := by
  classical
  rcases hw.eq_or_reaches with rfl | ⟨x, t, rfl, -, hreach⟩
  · exact ⟨A, h, Nat.le_refl _, fun hne => absurd rfl hne⟩
  · have hx : x ∉ A := by
      intro hx
      exact hs x (h.reaches x hx x (by simp))
    have hxV : x ∈ V := h.vars x (by simp)
    have hcard : (insert x A).card = A.card + 1 := Finset.card_insert_of_notMem hx
    refine ⟨insert x A, ⟨?_, hw.all hV h.vars, fun z hz y hy => ?_⟩, by omega, fun _ => by omega⟩
    · exact Finset.insert_subset hxV h.subset
    · rcases Finset.mem_insert.1 hz with rfl | hz
      · exact hreach y hy
      · exact (h.reaches z hz x (by simp)).trans (hreach y hy)

end Path

/-! ## The run of the unifier -/

/-- `meet` unifies terms of which one is no pair, whenever the paths to them are long enough for the
budget `n`. -/
def Meets (V : Finset Var) (n : Nat)
    (meet : Store → Term → Term → Except Fault (Option Store)) : Prop :=
  ∀ s u v A B, s.Acyclic → s.All (· ∈ V) → Path s V A u → Path s V B v →
    2 * V.card < n + A.card + B.card → (∀ a b c d, u = .pair a b → v ≠ .pair c d) →
    ∃ o, meet s u v = .ok o ∧ Unification s u v o

/-- Going through pairs component by component needs no budget. -/
theorem Meets.unifyBy {V : Finset Var} {n : Nat}
    {meet : Store → Term → Term → Except Fault (Option Store)} (h : Meets V n meet) (u : Term) :
    ∀ s v A B, s.Acyclic → s.All (· ∈ V) → Path s V A u → Path s V B v →
      2 * V.card < n + A.card + B.card →
      ∃ o, Term.unifyBy meet s u v = .ok o ∧ Unification s u v o := by
  induction u with
  | nil | sym | var =>
    intro s v A B hs hV hu hv hn
    rw [Term.unifyBy]
    · exact h s _ v A B hs hV hu hv hn (fun _ _ _ _ hp => nomatch hp)
    · exact fun _ _ _ _ hp => nomatch hp
  | pair a b iha ihb =>
    intro s v A B hs hV hu hv hn
    cases v with
    | nil | sym | var =>
      rw [Term.unifyBy]
      · exact h s _ _ A B hs hV hu hv hn (fun _ _ _ _ _ hp => nomatch hp)
      · exact fun _ _ _ _ _ hp => nomatch hp
    | pair c d =>
      obtain ⟨o, ho, hac⟩ := iha s c A B hs hV hu.first hv.first hn
      rw [Term.unifyBy, ho]
      cases hac with
      | unsolvable hac => exact ⟨none, rfl, (Unification.unsolvable hac).pair_unsolvable⟩
      | @solved r hac =>
        have hVr := hac.all _ hV hu.first.vars hv.first.vars
        obtain ⟨o, ho, hbd⟩ := ihb r d A B hac.acyclic hVr (hu.second.grow hac.grows)
          (hv.second.grow hac.grows) hn
        exact ⟨o, ho, hac.pair hbd⟩

/-- Two terms that are no variables and not both pairs are equal or cannot become equal. -/
theorem unification_of_const (hs : s.Acyclic) (ha : ∀ x, a ≠ .var x) (hb : ∀ x, b ≠ .var x)
    (hp : ∀ a₁ a₂ b₁ b₂, a = .pair a₁ a₂ → b ≠ .pair b₁ b₂) :
    Unification s a b (if a = b then some s else none) := by
  split
  · next h =>
    subst h
    exact .solved (.refl hs fun _ => rfl)
  · next h =>
    refine .unsolvable fun σ _ heq => h ?_
    cases a with
    | var x => exact absurd rfl (ha x)
    | nil | sym =>
      cases b with
      | var x => exact absurd rfl (hb x)
      | nil | sym => exact heq
      | pair => simp at heq
    | pair a₁ a₂ =>
      cases b with
      | var x => exact absurd rfl (hb x)
      | nil | sym => simp at heq
      | pair b₁ b₂ => exact absurd rfl (hp a₁ a₂ b₁ b₂ rfl)

/-- The budget suffices for two terms that meet: it is spent on the variables followed on the paths
to them. -/
theorem meets_meetWithin (V : Finset Var) (n : Nat) : Meets V n (meetWithin n) := by
  induction n with
  | zero =>
    intro s u v A B _ _ hu hv hn _
    have := hu.card_le
    have := hv.card_le
    omega
  | succ n ih =>
    intro s u v A B hs hV hu hv hn hne
    obtain ⟨a, ha, hwa⟩ := hs.walk_eq u
    obtain ⟨b, hb, hwb⟩ := hs.walk_eq v
    obtain ⟨A', hA, hAA, hAlt⟩ := hu.follow hs hV hwa
    obtain ⟨B', hB, hBB, hBlt⟩ := hv.follow hs hV hwb
    have lift : (∃ o, meetWithin (n + 1) s u v = .ok o ∧ Unification s a b o) →
        ∃ o, meetWithin (n + 1) s u v = .ok o ∧ Unification s u v o := fun ⟨o, ho, h⟩ =>
      ⟨o, ho, h.of_walksTo hwa hwb⟩
    refine lift ?_
    rw [meetWithin, ha, hb]
    match a, b with
    | .var x, b =>
      dsimp only
      by_cases hbx : b = .var x
      · rw [if_pos hbx, hbx]
        exact ⟨_, rfl, .solved (.refl hs fun _ => rfl)⟩
      · rw [if_neg hbx]
        exact hs.extend_eq hwa.unbound hbx fun y hy => (hy ▸ hwb).unbound
    | .nil, .var y | .sym _, .var y | .pair _ _, .var y =>
      exact hs.extend_eq_symm hwb.unbound fun _ h => nomatch h
    | .pair a₁ a₂, .pair b₁ b₂ =>
      refine ih.unifyBy _ s _ A' B' hs hV hA hB ?_
      have hlt : A.card < A'.card ∨ B.card < B'.card := by
        by_cases hau : Term.pair a₁ a₂ = u
        · exact .inr (hBlt fun hbv => hne a₁ a₂ b₁ b₂ hau.symm hbv.symm)
        · exact .inl (hAlt hau)
      omega
    | .nil, .nil | .nil, .sym _ | .sym _, .nil | .sym _, .sym _ | .nil, .pair _ _
    | .sym _, .pair _ _ | .pair _ _, .nil | .pair _ _, .sym _ =>
      refine ⟨_, rfl, unification_of_const hs (fun _ h => nomatch h) (fun _ h => nomatch h) ?_⟩
      exact fun _ _ _ _ h h' => by cases h <;> cases h'

/-- The variables of bindings, in order. -/
def bindingVars (bs : List (Var × Term)) : List Var := bs.flatMap fun b => b.1 :: b.2.vars

/-- Bindings are as large as they have variables. -/
theorem length_bindingVars_le : ∀ bs : List (Var × Term), (bindingVars bs).length ≤ bindingsLoad bs
  | [] => Nat.le_refl 0
  | (_, t) :: older => by
    have := length_bindingVars_le older
    have := t.length_vars_le_size
    simp only [bindingVars, List.flatMap_cons, List.length_append, List.length_cons, bindingsLoad]
      at *
    omega

/-- Unification in an acyclic store has an outcome. -/
theorem Acyclic.unify_eq (hs : s.Acyclic) (u v : Term) :
    ∃ o, s.unify u v = .ok o ∧ Unification s u v o := by
  let vars := bindingVars s.bindings ++ (u.vars ++ v.vars)
  have hmem : ∀ {y}, y ∈ vars.toFinset ↔ y ∈ bindingVars s.bindings ∨ y ∈ u.vars ∨ y ∈ v.vars := by
    intro y
    rw [List.mem_toFinset, List.mem_append, List.mem_append]
  have hV : s.All (· ∈ vars.toFinset) := by
    intro x t hxt
    have hsub : ∀ y ∈ x :: t.vars, y ∈ vars.toFinset := by
      intro y hy
      exact hmem.2 (.inl (List.mem_flatMap.2 ⟨(x, t), hxt, hy⟩))
    exact ⟨hsub x (by simp), fun y hy => hsub y (by simp [hy])⟩
  have hcard : vars.toFinset.card ≤ s.load + (u.size + v.size) := by
    have hle := List.toFinset_card_le vars
    have hb := length_bindingVars_le s.bindings
    have hu := u.length_vars_le_size
    have hv := v.length_vars_le_size
    rw [← s.load_eq] at hb
    simp only [vars, List.length_append] at hle ⊢
    omega
  refine (meets_meetWithin vars.toFinset (s.unifyBound u v)).unifyBy u s v ∅ ∅ hs hV
    (.start fun y hy => hmem.2 (.inr (.inl hy))) (.start fun y hy => hmem.2 (.inr (.inr hy))) ?_
  simp only [unifyBound, Finset.card_empty]
  omega

/-! ## The main statement -/

/-- A solvable system is one that an acyclic store can be extended to. -/
theorem Unification.eq_none_iff (h : Unification s u v o) :
    o = none ↔ ¬ ∃ σ : Valuation, σ.Satisfies s ∧ u.mapVars σ = v.mapVars σ := by
  cases h with
  | solved h =>
    refine iff_of_false (fun h => nomatch h) fun hno => hno ?_
    exact ⟨_, (h.satisfies_iff _).1 h.acyclic.solution_satisfies⟩
  | unsolvable h => exact iff_of_true rfl fun ⟨σ, hσ, heq⟩ => h σ hσ heq

/-- Unification in an acyclic store ends. If it gives a store, then the valuations that satisfy that
store are those that satisfy the old one and make the terms equal; and it gives none precisely when
there is no such valuation. -/
theorem unify_mostGeneral (s : Store) (hs : s.Acyclic) (u v : Term) :
    (∃ o, s.unify u v = .ok o) ∧
      (∀ r, s.unify u v = .ok (some r) →
        ∀ σ : Valuation, σ.Satisfies r ↔ σ.Satisfies s ∧ u.mapVars σ = v.mapVars σ) ∧
      (s.unify u v = .ok none ↔ ¬ ∃ σ : Valuation, σ.Satisfies s ∧ u.mapVars σ = v.mapVars σ) := by
  obtain ⟨o, ho, h⟩ := hs.unify_eq u v
  refine ⟨⟨o, ho⟩, fun r hr => ?_, ?_⟩
  · rw [ho] at hr
    cases hr
    cases h with
    | solved h => exact h.satisfies_iff
  · rw [ho, ← h.eq_none_iff, Except.ok.injEq]

/-- In the store that binds `x` to `(,y . ,y)`, the variable `x` is unified with `(,z)` by the two
bindings of `y` to `,z` and of `z` to the empty list. -/
theorem unify_mostGeneral_shared :
    (empty.push ⟨"x"⟩ (.pair (.named "y") (.named "y"))).Acyclic ∧
      ∀ σ : Valuation,
        σ.Satisfies (((empty.push ⟨"x"⟩ (.pair (.named "y") (.named "y"))).push ⟨"y"⟩
            (.named "z")).push ⟨"z"⟩ .nil) ↔
          σ.Satisfies (empty.push ⟨"x"⟩ (.pair (.named "y") (.named "y"))) ∧
            (Term.named "x").mapVars σ = (Term.pair (.named "z") .nil).mapVars σ := by
  have hs : (empty.push ⟨"x"⟩ (.pair (.named "y") (.named "y"))).Acyclic :=
    acyclic_empty.push rfl (by decide)
  exact ⟨hs, (unify_mostGeneral _ hs _ _).2.1 _ (by decide +kernel)⟩

end Relational.Store
