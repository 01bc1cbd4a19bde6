import Mathlib.Data.Finset.Card
import Mathlib.Data.List.Defs
import Mathlib.Logic.Relation
import Relational.Store.Basic

/-!
# Acyclic stores

A variable mentions the variables of the term that it is bound to, and a store is acyclic when no
chain of mentions comes back to where it started. In an acyclic store every variable has a depth, the
number of bound variables that chains from it can meet (`Store.depth`): a mention goes down
(`Acyclic.depth_lt`), and no depth exceeds the budget of the store operations (`depth_lt_pathBound`).
Statements about terms in such a store are proved along the bindings (`Acyclic.termInduction`).
-/

namespace Relational.Store

open Relation

/-- The value of `x` in the store has the variable `y`. -/
def Mentions (s : Store) (x y : Var) : Prop := ∃ t, s.lookup x = some t ∧ y ∈ t.vars

/-- No chain of mentions comes back to the variable from which it starts. -/
def Acyclic (s : Store) : Prop := ∀ x, ¬ TransGen s.Mentions x x

variable {s : Store} {x y : Var} {t : Term}

/-! ## Looking up -/

@[simp] theorem lookup_empty (x : Var) : empty.lookup x = none := rfl

/-- What is looked up is one of the bindings. -/
theorem mem_bindings_of_lookup (h : s.lookup x = some t) : (x, t) ∈ s.bindings := by
  obtain ⟨newer, older, hb, -⟩ := List.lookup_eq_some_iff.1 h
  rw [hb]
  simp

/-- The variables that have a binding. -/
def domain (s : Store) : Finset Var := (s.bindings.map Prod.fst).toFinset

theorem mem_domain_of_lookup (h : s.lookup x = some t) : x ∈ s.domain :=
  List.mem_toFinset.2 (List.mem_map.2 ⟨_, mem_bindings_of_lookup h, rfl⟩)

/-- Every binding adds to how large the bindings are. -/
theorem length_le_bindingsLoad : ∀ bs : List (Var × Term), bs.length ≤ bindingsLoad bs
  | [] => Nat.le_refl 0
  | (_, t) :: older => by
    have := length_le_bindingsLoad older
    simp only [List.length_cons, bindingsLoad]
    omega

theorem card_domain_le_load (s : Store) : s.domain.card ≤ s.load := by
  calc s.domain.card ≤ (s.bindings.map Prod.fst).length := List.toFinset_card_le _
    _ = s.bindings.length := List.length_map _
    _ ≤ s.load := by rw [s.load_eq]; exact length_le_bindingsLoad _

/-! ## Depth -/

open Classical in
/-- How many bound variables there are on the chains of mentions that start at `x`. -/
noncomputable def depth (s : Store) (x : Var) : Nat :=
  (s.domain.filter fun z => ReflTransGen s.Mentions x z).card

/-- A chain of mentions goes down. -/
theorem Acyclic.depth_lt (hs : s.Acyclic) (h : s.Mentions x y) : s.depth y < s.depth x := by
  classical
  obtain ⟨t, ht, hy⟩ := h
  have hm : s.Mentions x y := ⟨t, ht, hy⟩
  refine Finset.card_lt_card ⟨fun z hz => ?_, fun hsub => ?_⟩
  · obtain ⟨hz, hyz⟩ := Finset.mem_filter.1 hz
    exact Finset.mem_filter.2 ⟨hz, hyz.head hm⟩
  · have hx : x ∈ s.domain.filter fun z => ReflTransGen s.Mentions x z :=
      Finset.mem_filter.2 ⟨mem_domain_of_lookup ht, .refl⟩
    have hyx := (Finset.mem_filter.1 (hsub hx)).2
    exact hs x (TransGen.head' hm hyx)

/-- Paths through bindings stay within the budget of a store. -/
theorem depth_lt_pathBound (s : Store) (x : Var) : s.depth x < s.pathBound := by
  classical
  have hle : s.depth x ≤ s.domain.card := Finset.card_filter_le _ _
  have := s.card_domain_le_load
  rw [pathBound]
  omega

/-- A store in which every mention goes down in some order by numbers is acyclic. -/
theorem acyclic_of_rank (rank : Var → Nat) (h : ∀ x y, s.Mentions x y → rank y < rank x) :
    s.Acyclic := by
  have hlt : ∀ {x y}, TransGen s.Mentions x y → rank y < rank x := by
    intro x y hxy
    induction hxy with
    | single hm => exact h _ _ hm
    | tail _ hm ih => exact (h _ _ hm).trans ih
  exact fun x hx => Nat.lt_irrefl _ (hlt hx)

theorem acyclic_empty : empty.Acyclic :=
  acyclic_of_rank (fun _ => 0) fun _ _ ⟨_, h, _⟩ => by cases h

/-- Induction along the bindings: a property of terms that goes from components to pairs and from
values to bound variables, and that open variables and constants have, holds of all terms. -/
@[elab_as_elim]
theorem Acyclic.termInduction {motive : Term → Prop} (hs : s.Acyclic) (nil : motive .nil)
    (sym : ∀ a, motive (.sym a)) (pair : ∀ a b, motive a → motive b → motive (.pair a b))
    (unbound : ∀ x, s.lookup x = none → motive (.var x))
    (bound : ∀ x t, s.lookup x = some t → motive t → motive (.var x)) (t : Term) : motive t := by
  have of_vars : ∀ t, (∀ x ∈ t.vars, motive (.var x)) → motive t := by
    intro t ht
    induction t with
    | nil => exact nil
    | sym a => exact sym a
    | var x => exact ht x (by simp)
    | pair a b iha ihb =>
      exact pair a b (iha fun x hx => ht x (by simp [hx])) (ihb fun x hx => ht x (by simp [hx]))
  have of_depth : ∀ n x, s.depth x < n → motive (.var x) := by
    intro n
    induction n with
    | zero => exact fun x hx => absurd hx (Nat.not_lt_zero _)
    | succ n ih =>
      intro x hn
      match hx : s.lookup x with
      | none => exact unbound x hx
      | some u =>
        refine bound x u hx (of_vars u fun y hy => ih y ?_)
        have := hs.depth_lt ⟨u, hx, hy⟩
        omega
  exact of_vars t fun x _ => of_depth (s.depth x + 1) x (Nat.lt_succ_self _)

end Relational.Store
