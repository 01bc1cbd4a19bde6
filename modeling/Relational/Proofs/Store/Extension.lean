import Relational.Proofs.Store.Solution

/-!
# Extending a store

A store is extended by one binding after the other, each of a variable that was unbound
(`Store.Extends`). Such a binding adds one equation to what a valuation has to satisfy
(`satisfies_push`). A binding of any variable keeps a store acyclic precisely when no chain of bindings
leads from the new value back to the variable (`Acyclic.push_iff`). Chains to an unbound variable show
in the value with all bindings applied (`Acyclic.leadsTo_iff`), so its binding keeps the store acyclic
when it does not occur there (`Acyclic.push`). The bindings that were there stay as they are, behind
the new ones (`Extends.exists_added`), and no variable is bound twice (`Extends.bindsOnce`).
-/

namespace Relational.Store

open Relation

variable {s r q : Store} {x y : Var} {t : Term} {σ : Valuation}

/-! ## One binding more -/

theorem lookup_push_self (s : Store) (x : Var) (t : Term) : (s.push x t).lookup x = some t := by
  rw [lookup_push, if_pos rfl]

/-- A binding of an unbound variable leaves the bindings of all others as they are. -/
theorem lookup_push_of_lookup (hx : s.lookup x = none) {u : Term} (hy : s.lookup y = some u) :
    (s.push x t).lookup y = some u := by
  have hne : y ≠ x := by
    rintro rfl
    rw [hx] at hy
    cases hy
  rw [lookup_push, if_neg hne, hy]

/-- A binding of an unbound variable is one more equation. -/
theorem satisfies_push (hx : s.lookup x = none) :
    σ.Satisfies (s.push x t) ↔ σ.Satisfies s ∧ σ x = t.mapVars σ := by
  constructor
  · intro h
    exact ⟨fun y u hy => h y u (lookup_push_of_lookup hx hy), h x t (lookup_push_self s x t)⟩
  · rintro ⟨hs, ht⟩ y u hy
    rw [lookup_push] at hy
    split at hy
    · next hyx =>
      cases hy
      rw [hyx, ht]
    · exact hs y u hy

/-! ## Cycles -/

/-- A chain of mentions leads from a variable of the term to `x`. -/
def LeadsTo (s : Store) (t : Term) (x : Var) : Prop := ∃ y ∈ t.vars, ReflTransGen s.Mentions y x

/-- A mention adds the variables below it. -/
theorem Acyclic.mem_solution_of_mentions (hs : s.Acyclic) (h : s.Mentions x y) {z : Var}
    (hz : z ∈ (s.solution y).vars) : z ∈ (s.solution x).vars := by
  obtain ⟨t, ht, hy⟩ := h
  rw [hs.solution_of_bound ht]
  exact Term.mem_vars_mapVars.2 ⟨y, hy, hz⟩

/-- What occurs in a term with all bindings applied is what chains of mentions lead to. -/
theorem Acyclic.leadsTo_of_mem_vars (hs : s.Acyclic) (t : Term)
    (h : x ∈ (t.mapVars s.solution).vars) : s.LeadsTo t x := by
  induction t using hs.termInduction with
  | nil | sym => cases h
  | pair a b iha ihb =>
    rw [Term.mapVars_pair, Term.vars_pair, List.mem_append] at h
    rcases h with h | h
    · obtain ⟨y, hy, hyx⟩ := iha h
      exact ⟨y, by simp [hy], hyx⟩
    · obtain ⟨y, hy, hyx⟩ := ihb h
      exact ⟨y, by simp [hy], hyx⟩
  | unbound y hy =>
    rw [Term.mapVars_var, solution_of_unbound hy] at h
    exact ⟨x, h, .refl⟩
  | bound y u hy ih =>
    rw [Term.mapVars_var, hs.solution_of_bound hy] at h
    obtain ⟨z, hz, hzx⟩ := ih h
    exact ⟨y, by simp, hzx.head ⟨u, hy, hz⟩⟩

/-- The chains that lead to an unbound variable are those that the occurs check sees. -/
theorem Acyclic.leadsTo_iff (hs : s.Acyclic) (hx : s.lookup x = none) (t : Term) :
    s.LeadsTo t x ↔ x ∈ (t.mapVars s.solution).vars := by
  refine ⟨fun ⟨y, hy, hyx⟩ => Term.mem_vars_mapVars.2 ⟨y, hy, ?_⟩, hs.leadsTo_of_mem_vars t⟩
  clear hy
  induction hyx using ReflTransGen.head_induction_on with
  | refl => rw [solution_of_unbound hx]; simp
  | head hm _ ih => exact hs.mem_solution_of_mentions hm ih

/-- A binding closes a cycle precisely when chains lead from its value back to its variable, which may
be bound already. -/
theorem Acyclic.push_iff (hs : s.Acyclic) : (s.push x t).Acyclic ↔ ¬ s.LeadsTo t x := by
  classical
  constructor
  · rintro hr ⟨y, hy, hyx⟩
    -- a chain to `x` is still one, at least from where it comes to `x` for the first time
    have hchain : ReflTransGen (s.push x t).Mentions y x := by
      clear hy
      induction hyx using ReflTransGen.head_induction_on with
      | refl => exact .refl
      | @head y z hm _ ih =>
        obtain ⟨u, hu, hz⟩ := hm
        by_cases hyx : y = x
        · exact hyx ▸ .refl
        · exact ih.head ⟨u, by rw [lookup_push, if_neg hyx, hu], hz⟩
    exact hr x (TransGen.head' ⟨t, lookup_push_self s x t, hy⟩ hchain)
  · intro ht
    -- the variables that lead to `x` are put above all those of its new value
    refine acyclic_of_rank
      (fun y => s.depth y + if ReflTransGen s.Mentions y x then s.pathBound else 0)
      fun y z ⟨u, hu, hz⟩ => ?_
    have hzb := s.depth_lt_pathBound z
    rw [lookup_push] at hu
    split at hu
    · next hyx =>
      cases hu
      have hzx : ¬ ReflTransGen s.Mentions z x := fun h => ht ⟨z, hz, h⟩
      have hxx : ReflTransGen s.Mentions y x := hyx ▸ .refl
      simp only [hzx, hxx, if_false, if_true]
      omega
    · have hm : s.Mentions y z := ⟨u, hu, hz⟩
      have hlt := hs.depth_lt hm
      by_cases hzx : ReflTransGen s.Mentions z x
      · have hyx : ReflTransGen s.Mentions y x := hzx.head hm
        simp only [hzx, hyx, if_true]
        omega
      · simp only [hzx, if_false]
        omega

/-- Binding an unbound variable to a term in which it does not occur leads to no cycle. -/
theorem Acyclic.push (hs : s.Acyclic) (hx : s.lookup x = none)
    (ht : x ∉ (t.mapVars s.solution).vars) : (s.push x t).Acyclic := by
  rwa [hs.push_iff, hs.leadsTo_iff hx]

/-! ## Many bindings more -/

/-- The second store is the first one with bindings put before, each of a variable that is unbound
until then. -/
inductive Extends (s : Store) : Store → Prop
  | refl : Extends s s
  | push {r : Store} {x : Var} {t : Term} (h : Extends s r) (hx : r.lookup x = none) :
    Extends s (r.push x t)

/-- No variable has two bindings. -/
def BindsOnce (s : Store) : Prop := (s.bindings.map Prod.fst).Nodup

theorem not_mem_of_lookup (hx : s.lookup x = none) : x ∉ s.bindings.map Prod.fst := by
  intro hmem
  obtain ⟨e, he, rfl⟩ := List.mem_map.1 hmem
  have hne := List.lookup_eq_none_iff.1 hx e he
  simp at hne

namespace Extends

theorem trans (h : Extends s r) (h' : Extends r q) : Extends s q := by
  induction h' with
  | refl => exact h
  | push _ hx ih => exact ih.push hx

/-- The variables that are bound already keep their values. -/
theorem lookup_eq (h : Extends s r) (hx : s.lookup x = some t) : r.lookup x = some t := by
  induction h with
  | refl => exact hx
  | push _ hy ih => exact lookup_push_of_lookup hy ih

/-- The variables that are unbound afterwards were unbound before. -/
theorem lookup_eq_none (h : Extends s r) (hx : r.lookup x = none) : s.lookup x = none := by
  cases hs : s.lookup x with
  | none => rfl
  | some t => rw [h.lookup_eq hs] at hx; cases hx

theorem mentions (h : Extends s r) (hm : s.Mentions x y) : r.Mentions x y := by
  obtain ⟨t, ht, hy⟩ := hm
  exact ⟨t, h.lookup_eq ht, hy⟩

/-- What a chain of mentions reaches stays within reach. -/
theorem reaches (h : Extends s r) (hm : TransGen s.Mentions x y) : TransGen r.Mentions x y :=
  TransGen.mono (fun _ _ => h.mentions) x y hm

/-- What is new stands before what was there, binds variables that were unbound, and binds each of them
once, to the value that it has afterwards. -/
theorem exists_added (h : Extends s r) :
    ∃ added, r.bindings = added ++ s.bindings ∧ (added.map Prod.fst).Nodup ∧
      ∀ e ∈ added, s.lookup e.1 = none ∧ r.lookup e.1 = some e.2 := by
  induction h with
  | refl => exact ⟨[], rfl, List.nodup_nil, fun _ he => nomatch he⟩
  | @push r x t h hx ih =>
    obtain ⟨added, hadded, hnodup, hlookup⟩ := ih
    refine ⟨(x, t) :: added, congrArg ((x, t) :: ·) hadded, List.nodup_cons.2 ⟨fun hmem => ?_, hnodup⟩,
      fun e he => ?_⟩
    · obtain ⟨e, he, rfl⟩ : ∃ e ∈ added, e.1 = x := List.mem_map.1 hmem
      rw [(hlookup e he).2] at hx
      cases hx
    · rcases List.mem_cons.1 he with rfl | he
      · exact ⟨h.lookup_eq_none hx, lookup_push_self r x t⟩
      · have ⟨hunbound, hbound⟩ := hlookup e he
        exact ⟨hunbound, lookup_push_of_lookup hx hbound⟩

/-- What is new stands before what was there, and binds variables that were unbound. -/
theorem exists_newer (h : Extends s r) :
    ∃ newer, r.bindings = newer ++ s.bindings ∧ ∀ e ∈ newer, s.lookup e.1 = none := by
  obtain ⟨added, hadded, -, hlookup⟩ := h.exists_added
  exact ⟨added, hadded, fun e he => (hlookup e he).1⟩

/-- A store that extends to an acyclic one is acyclic. -/
theorem acyclic (h : Extends s r) (hr : r.Acyclic) : s.Acyclic := fun x hx => hr x (h.reaches hx)

/-- A store without double bindings gets none. -/
theorem bindsOnce (h : Extends s r) (hs : s.BindsOnce) : r.BindsOnce := by
  induction h with
  | refl => exact hs
  | push _ hx ih => exact List.nodup_cons.2 ⟨not_mem_of_lookup hx, ih⟩

end Extends

/-! ## Variables of a store -/

/-- All variables in the bindings of the store have the property. -/
def All (P : Var → Prop) (s : Store) : Prop :=
  ∀ x t, (x, t) ∈ s.bindings → P x ∧ ∀ y ∈ t.vars, P y

theorem all_empty (P : Var → Prop) : empty.All P := fun _ _ h => nomatch h

variable {P : Var → Prop}

theorem All.push (h : s.All P) (hx : P x) (ht : ∀ y ∈ t.vars, P y) : (s.push x t).All P := by
  intro y u hy
  rcases List.mem_cons.1 hy with hy | hy
  · cases hy
    exact ⟨hx, ht⟩
  · exact h y u hy

/-- The variables of a value have the property. -/
theorem All.of_lookup (h : s.All P) (hx : s.lookup x = some t) : P x ∧ ∀ y ∈ t.vars, P y :=
  h x t (mem_bindings_of_lookup hx)

/-- Following bindings leads to no other variables. -/
theorem WalksTo.all {a : Term} (h : s.WalksTo t a) (hs : s.All P) (ht : ∀ x ∈ t.vars, P x) :
    ∀ x ∈ a.vars, P x := by
  induction h with
  | stop => exact ht
  | follow hz _ ih => exact ih (hs.of_lookup hz).2

end Relational.Store
