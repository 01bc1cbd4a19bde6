import Mathlib.Logic.Equiv.Basic
import Relational.Proofs.Goal.Budget
import Relational.Proofs.Goal.Positions

/-!
# Derivations

The search says in which order answers come. A derivation says only how a goal takes one state to
another: it is a proof tree with a rule for every form of goal. The main statement is
`emissions_equiv_derivations`: the steps at which a pure goal emits a state are in one-to-one
correspondence with its derivations, and what is emitted is the state in which the derivation ends.
No answer is lost, and none is repeated.
-/

namespace Relational

/-- A goal whose names have the meaning `ρ` takes the first state to the second one. -/
inductive Derivation (p : Program) : Goal → Scope → State → State → Type
  | succeed {ρ : Scope} {s : State} : Derivation p .succeed ρ s s
  | eq {u v : Term} {ρ : Scope} {s : State} {r : Store}
    (h : s.store.unify (ρ.instantiate u) (ρ.instantiate v) = .ok (some r)) :
    Derivation p (.eq u v) ρ s { s with store := r }
  | left {g h : Goal} {ρ : Scope} {s b : State} (d : Derivation p g ρ s b) :
    Derivation p (.disj g h) ρ s b
  | right {g h : Goal} {ρ : Scope} {s b : State} (d : Derivation p h ρ s b) :
    Derivation p (.disj g h) ρ s b
  | conj {g h : Goal} {ρ : Scope} {s m b : State} (first : Derivation p g ρ s m)
    (second : Derivation p h ρ m b) : Derivation p (.conj g h) ρ s b
  | fresh {x : Var} {g : Goal} {ρ : Scope} {s b : State}
    (d : Derivation p g ((x, .var (.fresh s.counter)) :: ρ) { s with counter := s.counter + 1 } b) :
    Derivation p (.fresh x g) ρ s b
  | call {r : RelName} {args : List Term} {ρ : Scope} {s b : State}
    (d : Derivation p (p.definition r).body
      (.ofArgs (p.definition r).params (args.map ρ.instantiate)) s b) :
    Derivation p (.call r args) ρ s b

variable {p : Program} {g : Goal} {ρ : Scope} {s b c : State}

namespace Derivation

/-- The choices that a derivation makes. -/
def unfolding {g : Goal} {ρ : Scope} {s b : State} : Derivation p g ρ s b → Unfolding p g
  | succeed => .succeed
  | eq _ => .eq
  | left d => .left d.unfolding
  | right d => .right d.unfolding
  | conj first second => .conj first.unfolding second.unfolding
  | fresh d => .fresh d.unfolding
  | call d => .call d.unfolding

/-- A derivation ends in the state that its unfolding reaches. -/
theorem reaches (d : Derivation p g ρ s b) : d.unfolding.Reaches ρ s b := by
  induction d with
  | succeed => exact Unfolding.reaches_succeed.2 rfl
  | eq h => exact Unfolding.reaches_eq.2 ⟨_, h, rfl⟩
  | left d ih => exact Unfolding.reaches_left.2 ih
  | right d ih => exact Unfolding.reaches_right.2 ih
  | conj first second ih ih' => exact Unfolding.reaches_conj.2 ⟨_, ih, ih'⟩
  | fresh d ih => exact Unfolding.reaches_fresh.2 ih
  | call d ih => exact Unfolding.reaches_call.2 ih

/-- The choices determine the derivation. -/
theorem unfolding_injective (d : Derivation p g ρ s b) (d' : Derivation p g ρ s c)
    (h : d.unfolding = d'.unfolding) :
    (⟨b, d⟩ : Σ b, Derivation p g ρ s b) = ⟨c, d'⟩ := by
  induction d generalizing c with
  | succeed => cases d'; rfl
  | eq hr =>
    cases d' with
    | eq hr' =>
      obtain rfl := Option.some.inj (Except.ok.inj (hr.symm.trans hr'))
      rfl
  | left d ih =>
    cases d' with
    | left d' =>
      cases ih d' (Unfolding.left.inj h)
      rfl
    | right d' => cases h
  | right d ih =>
    cases d' with
    | left d' => cases h
    | right d' =>
      cases ih d' (Unfolding.right.inj h)
      rfl
  | conj first second ih ih' =>
    cases d' with
    | conj first' second' =>
      obtain ⟨hfirst, hsecond⟩ := Unfolding.conj.inj h
      cases ih first' hfirst
      cases ih' second' hsecond
      rfl
  | fresh d ih =>
    cases d' with
    | fresh d' =>
      cases ih d' (Unfolding.fresh.inj h)
      rfl
  | call d ih =>
    cases d' with
    | call d' =>
      cases ih d' (Unfolding.call.inj h)
      rfl

/-- Choices that reach a state are those of a derivation. -/
theorem exists_unfolding {a : Unfolding p g} (h : a.Reaches ρ s b) :
    ∃ d : Derivation p g ρ s b, d.unfolding = a := by
  induction a generalizing ρ s b with
  | succeed =>
    obtain rfl := Unfolding.reaches_succeed.1 h
    exact ⟨succeed, rfl⟩
  | eq =>
    obtain ⟨r, hr, rfl⟩ := Unfolding.reaches_eq.1 h
    exact ⟨eq hr, rfl⟩
  | left a ih =>
    obtain ⟨d, rfl⟩ := ih (Unfolding.reaches_left.1 h)
    exact ⟨left d, rfl⟩
  | right a ih =>
    obtain ⟨d, rfl⟩ := ih (Unfolding.reaches_right.1 h)
    exact ⟨right d, rfl⟩
  | conj a a' ih ih' =>
    obtain ⟨m, hm, hb⟩ := Unfolding.reaches_conj.1 h
    obtain ⟨d, rfl⟩ := ih hm
    obtain ⟨d', rfl⟩ := ih' hb
    exact ⟨conj d d', rfl⟩
  | fresh a ih =>
    obtain ⟨d, rfl⟩ := ih (Unfolding.reaches_fresh.1 h)
    exact ⟨fresh d, rfl⟩
  | call a ih =>
    obtain ⟨d, rfl⟩ := ih (Unfolding.reaches_call.1 h)
    exact ⟨call d, rfl⟩

end Derivation

/-- The steps at which a pure goal emits a state from an acyclic store are in one-to-one
correspondence with its derivations, as long as the counter does not overflow, and the state is the
one in which the derivation ends. -/
theorem emissions_equiv_derivations {n : Nat} (hp : p.Pure) (hg : g.Pure) (hs : s.store.Acyclic)
    (hoverflow : ¬ g.Overflows p (n + 1) s) :
    ∃ e : {k // ∃ b, g.EmitsAt p (n + 1) s k b} ≃ Σ b, Derivation p g [] s b,
      ∀ k b (hk : g.EmitsAt p (n + 1) s k b), (e ⟨k, b, hk⟩).1 = b := by
  -- the position of a derivation is that of its unfolding
  have hplace : ∀ d : Σ b, Derivation p g [] s b,
      ∃ k, d.2.unfolding.At n [] s k ∧ g.EmitsAt p (n + 1) s k d.1 := fun d =>
    Goal.exists_emitsAt hp hg hs hoverflow d.2.reaches
  choose place hat hemits using hplace
  have hbijective : Function.Bijective fun d =>
      (⟨place d, d.1, hemits d⟩ : {k // ∃ b, g.EmitsAt p (n + 1) s k b}) := by
    constructor
    · intro d d' h
      have hk : place d = place d' := congrArg Subtype.val h
      have hunfolding := (hat d).unfolding_unique (hk ▸ hat d')
      exact d.2.unfolding_injective d'.2 hunfolding
    · rintro ⟨k, b, hk⟩
      obtain ⟨a, ha, hreaches⟩ := hk.exists_unfolding hp hg
      obtain ⟨d, rfl⟩ := Derivation.exists_unfolding hreaches
      exact ⟨⟨b, d⟩, Subtype.ext ((hat ⟨b, d⟩).step_unique ha)⟩
  let e := Equiv.ofBijective _ hbijective
  refine ⟨e.symm, fun k b hk => ?_⟩
  have hplaced : place (e.symm ⟨k, b, hk⟩) = k :=
    congrArg Subtype.val (e.apply_symm_apply ⟨k, b, hk⟩)
  have hend := hemits (e.symm ⟨k, b, hk⟩)
  rw [hplaced] at hend
  exact hend.unique hk

/-- The correspondence for the items of a list of two. -/
theorem emissions_equiv_derivations_membero :
    ¬ (Goal.call .membero [.named "q", .list [.sym "a", .sym "b"]]).Overflows [] 1 .empty ∧
      ∃ e : {k // ∃ b,
          (Goal.call .membero [.named "q", .list [.sym "a", .sym "b"]]).EmitsAt [] 1 .empty k b} ≃
          Σ b, Derivation [] (.call .membero [.named "q", .list [.sym "a", .sym "b"]]) [] .empty b,
        ∀ k b hk, (e ⟨k, b, hk⟩).1 = b := by
  have hoverflow :
      ¬ (Goal.call .membero [.named "q", .list [.sym "a", .sym "b"]]).Overflows [] 1 .empty :=
    Goal.not_overflows_of_stop_mem (k := 20) rfl (by decide +kernel)
  exact ⟨hoverflow, emissions_equiv_derivations (fun _ h => nomatch h) trivial
    Store.acyclic_empty hoverflow⟩

end Relational
