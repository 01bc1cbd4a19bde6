import Relational.Proofs.Goal.Freshness
import Relational.Proofs.Goal.Simulation

/-!
# Allocated variables

A variable is allocated by its number alone, so it is new as far as nothing that a branch holds has
the number of the counter or a later one: not the store, not the goals that are still to be solved,
with what their names stand for, not the relations, and not the variables allocated before
(`Branch.Scoped`). Every step keeps it so (`Branch.Scoped.step`). Hence each variable that is
allocated is new to the branch, and a state that is emitted can be searched from in the same way
(`allocated_new`). That the search allocates on branches alone is shown by a search that runs beside
it and has another allocator (`Goal.steps_eq_stepsWith`).
-/

namespace Relational

variable {p : Program} {g : Goal} {s b : State} {c : Nat}

/-- A goal with enough arguments of which the names stand for terms of variables that are older than
the counter. -/
structure Closure.Scoped (p : Program) (c : Nat) (k : Closure) : Prop where
  saturated : k.goal.Saturated p
  older : k.scope.Older c k.goal

theorem Closure.Scoped.mono {k : Closure} {d : Nat} (hk : k.Scoped p c) (hcd : c ≤ d) :
    k.Scoped p d :=
  ⟨hk.saturated, hk.older.mono hcd⟩

theorem Goal.Scoped.closure (hg : g.Scoped p c) : Closure.Scoped p c ⟨g, []⟩ := by
  refine ⟨hg.saturated, fun x hx y hy => ?_⟩
  obtain rfl := List.mem_singleton.1 hy
  exact hg.older y hx

theorem Store.All.older_mono {r : Store} {d : Nat} (h : r.All (Var.Older c)) (hcd : c ≤ d) :
    r.All (Var.Older d) := by
  intro x t hx
  have ⟨hold, hvars⟩ := h x t hx
  exact ⟨hold.mono hcd, fun y hy => (hvars y hy).mono hcd⟩

namespace Branch

/-- All that the branch holds is older than its counter. -/
structure Scoped (p : Program) (a : Branch) : Prop where
  program : p.Scoped a.state.counter
  acyclic : a.state.store.Acyclic
  store : a.state.store.All (Var.Older a.state.counter)
  todo : ∀ k ∈ a.todo, k.Scoped p a.state.counter
  allocated : ∀ y ∈ a.allocated, y.Older a.state.counter

/-- The variable occurs in nothing that the branch holds or has come from. -/
structure New (p : Program) (g : Goal) (a : Branch) (y : Var) : Prop where
  store : a.state.store.All (· ≠ y)
  goal : y ∉ g.free
  program : ∀ r, y ∉ (p.definition r).free
  todo : ∀ k ∈ a.todo, ∀ x ∈ k.goal.free, y ∉ (k.scope.value x).vars
  allocated : y ∉ a.allocated

namespace Scoped

variable {k : Closure} {todo : List Closure} {xs : List Var} {a a' : Branch}

theorem start (hp : p.Scoped s.counter) (hg : g.Scoped p s.counter) (hs : s.store.Acyclic)
    (hold : s.store.All (Var.Older s.counter)) : Scoped p ⟨[⟨g, []⟩], s, []⟩ where
  program := hp
  acyclic := hs
  store := hold
  todo := fun k hk => by
    obtain rfl := List.mem_singleton.1 hk
    exact hg.closure
  allocated := fun _ hy => nomatch hy

theorem next (h : Scoped p ⟨k :: todo, s, xs⟩) : k.Scoped p s.counter :=
  h.todo k List.mem_cons_self

theorem rest (h : Scoped p ⟨k :: todo, s, xs⟩) : Scoped p ⟨todo, s, xs⟩ :=
  { h with todo := fun k' hk' => h.todo k' (List.mem_cons_of_mem k hk') }

theorem cons (h : Scoped p ⟨todo, s, xs⟩) (hk : k.Scoped p s.counter) :
    Scoped p ⟨k :: todo, s, xs⟩ :=
  { h with todo := List.forall_mem_cons.2 ⟨hk, h.todo⟩ }

/-- Solving an equation brings no variables into the store but those of its terms. -/
theorem solve {u v : Term} {r : Store} (h : Scoped p ⟨todo, s, xs⟩)
    (hr : s.store.unify u v = .ok (some r)) (hu : ∀ x ∈ u.vars, x.Older s.counter)
    (hv : ∀ x ∈ v.vars, x.Older s.counter) : Scoped p ⟨todo, { s with store := r }, xs⟩ := by
  obtain ⟨o, ho, hunify⟩ := h.acyclic.unify_eq u v
  rw [hr] at ho
  cases ho
  cases hunify with
  | solved hunifier =>
    exact { h with acyclic := hunifier.acyclic, store := hunifier.all _ h.store hu hv }

/-- The variable that is allocated is older than the counter behind it. -/
theorem allocate {y : Var} {m : State} (h : Scoped p ⟨todo, s, xs⟩)
    (hf : s.fresh = .ok (y, m)) : Scoped p ⟨todo, m, y :: xs⟩ := by
  obtain ⟨rfl, rfl⟩ := State.fresh_eq_ok hf
  have hle : s.counter ≤ s.counter + 1 := Nat.le_succ _
  exact
    { program := h.program.mono hle
      acyclic := h.acyclic
      store := h.store.older_mono hle
      todo := fun k hk => (h.todo k hk).mono hle
      allocated := List.forall_mem_cons.2
        ⟨Var.older_fresh (Nat.lt_succ_self _), fun y hy => (h.allocated y hy).mono hle⟩ }

theorem step (h : a.Scoped p) (hstep : Step p a a') : a'.Scoped p := by
  cases hstep with
  | succeed => exact h.rest
  | eq hr =>
    have hρ := h.next.older
    exact h.rest.solve hr (hρ.instantiate fun x hx => List.mem_append_left _ hx)
      (hρ.instantiate fun x hx => List.mem_append_right _ hx)
  | left => exact h.rest.cons ⟨h.next.saturated.1, h.next.older.left⟩
  | right => exact h.rest.cons ⟨h.next.saturated.2, h.next.older.right⟩
  | conj =>
    have ⟨hg, hρ⟩ := h.next
    exact (h.rest.cons ⟨hg.2, hρ.right⟩).cons ⟨hg.1, hρ.left⟩
  | fresh hf =>
    have ⟨hg, hρ⟩ := h.next
    refine (h.rest.allocate hf).cons ⟨hg, ?_⟩
    obtain ⟨rfl, rfl⟩ := State.fresh_eq_ok hf
    exact hρ.fresh
  | call =>
    have ⟨hg, hρ⟩ := h.next
    exact h.rest.cons ⟨h.program.saturated_definition _, hρ.call h.program hg⟩
  | @condition g yes no ρ _ s _ =>
    have ⟨hg, hρ⟩ := h.next
    have hfirst : Closure.Scoped p s.counter ⟨g, ρ⟩ :=
      ⟨hg.1, hρ.of_subset fun x hx => by simp [Goal.free, hx]⟩
    have hsecond : Closure.Scoped p s.counter ⟨yes, ρ⟩ :=
      ⟨hg.2.1, hρ.of_subset fun x hx => by simp [Goal.free, hx]⟩
    exact (h.rest.cons hsecond).cons hfirst
  | otherwise =>
    have ⟨hg, hρ⟩ := h.next
    exact h.rest.cons ⟨hg.2.2, hρ.of_subset fun x hx => by simp [Goal.free, hx]⟩
  | once => exact h.rest.cons ⟨h.next.saturated, h.next.older⟩

/-- Along a branch everything stays older than the counter. -/
theorem of_hasBranch (h : Scoped p ⟨[⟨g, []⟩], s, []⟩) (hbranch : g.HasBranch p s a) :
    a.Scoped p := by
  induction hbranch with
  | refl => exact h
  | tail _ hstep ih => exact ih.step hstep

/-- What is allocated next is new to all that is older than the counter. -/
theorem new {y : Var} {m : State} (h : a.Scoped p) (hf : a.state.fresh = .ok (y, m))
    (hg : ∀ x ∈ g.free, x.Older a.state.counter) : a.New p g y := by
  obtain ⟨rfl, -⟩ := State.fresh_eq_ok hf
  have hne : ∀ x : Var, x.Older a.state.counter → x ≠ .fresh a.state.counter := fun x hx =>
    hx _ (Nat.le_refl _)
  exact
    { store := fun x t hx => ⟨hne x (h.store x t hx).1, fun z hz => hne z ((h.store x t hx).2 z hz)⟩
      goal := fun hy => hne _ (hg _ hy) rfl
      program := fun r hy => hne _ (h.program.older_definition r _ hy) rfl
      todo := fun k hk x hx hy => hne _ ((h.todo k hk).older x hx _ hy) rfl
      allocated := fun hy => hne _ (h.allocated _ hy) rfl }

end Scoped

end Branch

/-- All that the search allocates is allocated on branches: an allocator that does what is usual wherever
a branch has come to an allocation leads to the same steps, whatever it does in other states. -/
theorem Goal.steps_eq_stepsWith {alloc : Allocator} (hs : s.store.Acyclic)
    (halloc : ∀ a, g.HasBranch p s a → a.Allocates → alloc a.state = a.state.fresh) (rounds k : Nat) :
    g.steps p rounds s k = g.stepsWith alloc p rounds s k :=
  (steps_muted hs halloc (fun _ _ _ _ => .refl _) rounds k).eq

/-- Each variable that a branch of a search allocates is new to the branch: it is not in the store,
in the goal or in a relation, and it has not been allocated before. Every state that is emitted is
the end of a branch and mentions no variable of its counter or later, and where the counter
overflows, a branch has come to an allocation. There are no other allocations, not on the branches that
fail or have no end either: the search makes the same steps with every allocator that agrees with
`State.fresh` in the states in which branches allocate. -/
theorem allocated_new (hp : p.Scoped s.counter) (hg : g.Scoped p s.counter)
    (hs : s.store.Acyclic) (hold : s.store.All (Var.Older s.counter)) :
    (∀ a, g.HasBranch p s a → a.Allocates →
        ∀ y m, a.state.fresh = .ok (y, m) → a.New p g y) ∧
      (∀ rounds k b, g.EmitsAt p rounds s k b →
        b.store.All (Var.Older b.counter) ∧ ∃ xs, g.HasBranch p s ⟨[], b, xs⟩) ∧
      (∀ rounds, g.Overflows p rounds s →
        ∃ a, g.HasBranch p s a ∧ a.Allocates ∧ a.state.fresh = .error .overflow) ∧
      ∀ alloc : Allocator,
        (∀ a, g.HasBranch p s a → a.Allocates → alloc a.state = a.state.fresh) →
          ∀ rounds k, g.steps p rounds s k = g.stepsWith alloc p rounds s k := by
  have hstart := Branch.Scoped.start hp hg hs hold
  refine ⟨fun a ha _ y m hf => ?_, fun rounds k b hb => ?_,
    fun rounds hoverflow => hoverflow.exists_branch hs, fun alloc => Goal.steps_eq_stepsWith hs⟩
  · have hcounter := (ha.continues hs).counter
    exact (hstart.of_hasBranch ha).new hf fun x hx => (hg.older x hx).mono hcounter
  · obtain ⟨xs, hbranch⟩ := hb.visits hs
    exact ⟨(hstart.of_hasBranch hbranch).store, xs, hbranch⟩

/-- Where `l` is bound to `(,v0 . ,v2)` and the counter is 3, the condition of a soft cut allocates
`v3`, and the goal behind it allocates `v4` under `once`. An allocator that has no variables below 3 does
as well. -/
theorem allocated_new_ifte :
    let s : State := ⟨Store.empty.push ⟨"l"⟩ (.pair (.var (.fresh 0)) (.var (.fresh 2))), 3⟩
    let g := Goal.ifte (.call .caro [.named "l", .named "x"])
      (.once (.fresh ⟨"z"⟩ (.eq (.named "x") (.list [.named "z"])))) .fail
    let alloc : Allocator := fun m => if m.counter < 3 then .error .overflow else m.fresh
    (∃ a b, g.HasBranch [] s a ∧ a.Allocates ∧ a.allocated = [.fresh 3] ∧
      a.New [] g (.fresh 4) ∧ g.EmitsAt [] 3 s 0 b ∧ b.store.All (Var.Older 5)) ∧
    ∀ rounds k, g.steps [] rounds s k = g.stepsWith alloc [] rounds s k := by
  intro s g alloc
  have hs : s.store.Acyclic := Store.acyclic_empty.push rfl (by decide)
  have hold : s.store.All (Var.Older 3) :=
    (Store.all_empty _).push (Var.older_of_head_ne (by decide) 3) fun y hy => by
      obtain rfl | rfl : y = .fresh 0 ∨ y = .fresh 2 := by simpa using hy
      · exact Var.older_fresh (by decide)
      · exact Var.older_fresh (by decide)
  have hg : g.Scoped [] 3 := by
    refine ⟨⟨Nat.le_refl 2, trivial, trivial⟩, fun x hx => ?_⟩
    obtain rfl | rfl : x = ⟨"l"⟩ ∨ x = ⟨"x"⟩ := by revert x; decide
    · exact Var.older_of_head_ne (by decide) 3
    · exact Var.older_of_head_ne (by decide) 3
  have hbranch : g.HasBranch [] s ⟨[⟨.fresh ⟨"z"⟩ (.eq (.named "x") (.list [.named "z"])), []⟩],
      ⟨(s.store.push ⟨"x"⟩ (.var (.fresh 0))).push (.fresh 3) (.var (.fresh 2)), 4⟩, [.fresh 3]⟩ :=
    ((((Relation.ReflTransGen.refl.tail .condition).tail .call).tail (.fresh rfl)).tail
      (.eq (by decide +kernel))).tail .once
  have ⟨hnew, hemitted, _, hsteps⟩ := allocated_new (Program.admissible_nil 3).scoped hg hs hold
  have hemits : g.EmitsAt [] 3 s 0 ⟨(((s.store.push ⟨"x"⟩ (.var (.fresh 0))).push (.fresh 3)
      (.var (.fresh 2))).push (.fresh 0) (.list [.var (.fresh 4)])), 5⟩ :=
    ⟨[.emit _], [], by decide +kernel, rfl⟩
  refine ⟨⟨_, _, hbranch, ⟨_, _, _, _, rfl⟩, rfl, hnew _ hbranch ⟨_, _, _, _, rfl⟩ _ _ rfl, hemits,
    (hemitted 3 0 _ hemits).1⟩, hsteps alloc fun a ha _ => ?_⟩
  have hcounter : 3 ≤ a.state.counter := (ha.continues hs).counter
  exact if_neg (Nat.not_lt.2 hcounter)

end Relational
