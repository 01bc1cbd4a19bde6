import Relational.Term.Basic

/-!
# Valuations

A valuation gives every variable a term, and `Term.mapVars` extends it to all terms. This module has
the algebra of that: a term depends on the values of its own variables alone (`mapVars_congr`,
`eq_of_mapVars_eq`), valuations compose (`mapVars_mapVars`), and the value of a variable is a part of
the value of every term in which it occurs (`size_lt_of_mem_vars`), which is why no valuation solves
an equation that the occurs check refuses.
-/

namespace Relational

/-- A term for every variable. -/
abbrev Valuation : Type := Var → Term

namespace Term

/-- A term in which no variable occurs. -/
def Ground (t : Term) : Prop := t.vars = []

/-! ## Values of terms -/

/-- The value of a term depends on the values of its variables alone. -/
theorem mapVars_congr {σ τ : Valuation} {t : Term} (h : ∀ x ∈ t.vars, σ x = τ x) :
    t.mapVars σ = t.mapVars τ := by
  induction t with
  | nil | sym => rfl
  | var x => exact h x (by simp)
  | pair a b iha ihb =>
    have ha : a.mapVars σ = a.mapVars τ := iha fun x hx => h x (by simp [hx])
    have hb : b.mapVars σ = b.mapVars τ := ihb fun x hx => h x (by simp [hx])
    rw [mapVars_pair, mapVars_pair, ha, hb]

/-- Two valuations that give a term the same value agree on its variables. -/
theorem eq_of_mapVars_eq {σ τ : Valuation} {t : Term} (h : t.mapVars σ = t.mapVars τ) {x : Var}
    (hx : x ∈ t.vars) : σ x = τ x := by
  induction t with
  | nil | sym => cases hx
  | var y =>
    have hxy : x = y := by simpa using hx
    subst hxy
    exact h
  | pair a b iha ihb =>
    rw [mapVars_pair, mapVars_pair] at h
    injection h with ha hb
    rcases List.mem_append.1 (vars_pair a b ▸ hx) with hx | hx
    · exact iha ha hx
    · exact ihb hb hx

/-- One valuation after another. -/
theorem mapVars_mapVars (σ τ : Valuation) (t : Term) :
    (t.mapVars σ).mapVars τ = t.mapVars fun x => (σ x).mapVars τ := by
  induction t with
  | nil | sym | var => rfl
  | pair a b iha ihb => simp only [mapVars_pair, iha, ihb]

/-- Where every variable stands for itself, so does every term. -/
theorem mapVars_var_self (t : Term) : t.mapVars var = t := by
  induction t with
  | nil | sym | var => rfl
  | pair a b iha ihb => rw [mapVars_pair, iha, ihb]

/-- A term whose variables stand for themselves stands for itself. -/
theorem mapVars_eq_self {σ : Valuation} {t : Term} (h : ∀ x ∈ t.vars, σ x = var x) :
    t.mapVars σ = t := by
  rw [mapVars_congr h, mapVars_var_self]

/-- The variables of a value are those of the values of the variables. -/
theorem mem_vars_mapVars {σ : Valuation} {t : Term} {y : Var} :
    y ∈ (t.mapVars σ).vars ↔ ∃ x ∈ t.vars, y ∈ (σ x).vars := by
  induction t with
  | nil | sym | var => simp
  | pair a b iha ihb => simp only [mapVars_pair, vars_pair, List.mem_append, iha, ihb, or_and_right,
      exists_or]

/-- Only a variable has a variable for its value. -/
theorem exists_var_of_mapVars_eq_var {σ : Valuation} {t : Term} {x : Var}
    (h : t.mapVars σ = var x) : ∃ y, t = var y ∧ σ y = var x := by
  cases t with
  | nil | sym => cases h
  | var y => exact ⟨y, rfl, h⟩
  | pair a b => rw [mapVars_pair] at h; cases h

theorem Ground.mapVars_eq {t : Term} (h : t.Ground) (σ : Valuation) : t.mapVars σ = t :=
  mapVars_eq_self fun x hx => by rw [h] at hx; cases hx

/-! ## Lists -/

theorem listWithTail_append (items items' : List Term) (t : Term) :
    listWithTail (items ++ items') t = listWithTail items (listWithTail items' t) :=
  List.foldr_append

theorem listWithTail_concat (items : List Term) (a t : Term) :
    listWithTail (items ++ [a]) t = listWithTail items (pair a t) :=
  listWithTail_append items [a] t

/-- A pair is a list of the first component and of the items of the second one. -/
theorem pair_eq_list_iff {a b c : Term} {items : List Term} :
    pair a b = list (c :: items) ↔ a = c ∧ b = list items :=
  Iff.of_eq (pair.injEq a b c (list items))

theorem mapVars_listWithTail (σ : Valuation) (items : List Term) (t : Term) :
    (listWithTail items t).mapVars σ = listWithTail (items.map (mapVars σ)) (t.mapVars σ) := by
  induction items with
  | nil => rfl
  | cons a items ih =>
    have hcons : listWithTail (a :: items) t = pair a (listWithTail items t) := rfl
    rw [hcons, mapVars_pair, ih]
    rfl

theorem vars_listWithTail (items : List Term) (t : Term) :
    (listWithTail items t).vars = items.flatMap vars ++ t.vars := by
  induction items with
  | nil => rfl
  | cons a items ih =>
    have hcons : listWithTail (a :: items) t = pair a (listWithTail items t) := rfl
    rw [hcons, vars_pair, ih, List.flatMap_cons, List.append_assoc]

theorem ground_listWithTail {items : List Term} {t : Term} (h : ∀ a ∈ items, a.Ground)
    (ht : t.Ground) : (listWithTail items t).Ground := by
  rw [Ground, vars_listWithTail, ht, List.append_nil]
  exact List.flatMap_eq_nil_iff.2 h

/-! ## Sizes of values -/

/-- The value of a variable is no larger than that of a term in which it occurs. -/
theorem size_le_of_mem_vars (σ : Valuation) {x : Var} {t : Term} (h : x ∈ t.vars) :
    (σ x).size ≤ (t.mapVars σ).size := by
  induction t with
  | nil | sym => cases h
  | var y =>
    have hxy : x = y := by simpa using h
    exact Nat.le_of_eq (by rw [hxy, mapVars_var])
  | pair a b iha ihb =>
    rw [mapVars_pair, size_pair]
    rcases List.mem_append.1 (vars_pair a b ▸ h) with h | h
    · have := iha h
      omega
    · have := ihb h
      omega

/-- The value of a variable is smaller than that of any other term in which it occurs. -/
theorem size_lt_of_mem_vars (σ : Valuation) {x : Var} {t : Term} (h : x ∈ t.vars)
    (hne : t ≠ var x) : (σ x).size < (t.mapVars σ).size := by
  cases t with
  | nil | sym => cases h
  | var y =>
    have hxy : x = y := by simpa using h
    exact absurd (congrArg var hxy.symm) hne
  | pair a b =>
    rw [mapVars_pair, size_pair]
    rcases List.mem_append.1 (vars_pair a b ▸ h) with h | h
    · have := size_le_of_mem_vars σ h
      omega
    · have := size_le_of_mem_vars σ h
      omega

/-- No valuation solves the equation of a variable and another term in which it occurs. -/
theorem mapVars_ne_of_mem_vars (σ : Valuation) {x : Var} {t : Term} (h : x ∈ t.vars)
    (hne : t ≠ var x) : σ x ≠ t.mapVars σ := by
  intro heq
  have hlt := size_lt_of_mem_vars σ h hne
  rw [heq] at hlt
  exact Nat.lt_irrefl _ hlt

end Term

end Relational
