import Relational.Proofs.Store.Canonical
import Relational.Proofs.Store.MostGeneral

/-!
# Termination of the store operations

The operations of a store follow bindings until they meet an open variable or a term that is no
variable, and nothing but the store decides how long that takes. In an acyclic store it always comes
to an end. A chain of bindings meets no variable twice, so a walk has at most as many successful
lookups as there are bound variables (`WalksIn`, `Acyclic.exists_walksIn`). The other operations have
an outcome, and it does not come from a budget that runs out: every larger budget leads to the same
outcome (`Acyclic.operations_end`). For unification this is so although the store grows on the way,
because what a smaller budget has found out, a larger one finds out again (`meetWithin_mono`).
-/

namespace Relational

/-! ## Larger budgets -/

/-- Where one way of unifying terms that are not both pairs has an outcome, let another one have the
same. Then this is so for all terms. -/
theorem Term.unifyBy_mono {meet meet' : Store → Term → Term → Except Fault (Option Store)}
    (h : ∀ s u v o, meet s u v = .ok o → meet' s u v = .ok o) (u : Term) :
    ∀ s v o, Term.unifyBy meet s u v = .ok o → Term.unifyBy meet' s u v = .ok o := by
  induction u with
  | nil | sym | var =>
    intro s v o ho
    rw [Term.unifyBy] at ho ⊢
    · exact h _ _ _ _ ho
    all_goals
      intro _ _ _ _ hp
      cases hp
  | pair a b iha ihb =>
    intro s v o ho
    cases v with
    | nil | sym | var =>
      rw [Term.unifyBy] at ho ⊢
      · exact h _ _ _ _ ho
      all_goals
        intro _ _ _ _ _ hp
        cases hp
    | pair c d =>
      rw [Term.unifyBy] at ho ⊢
      cases hac : Term.unifyBy meet s a c with
      | error e => rw [hac] at ho; cases ho
      | ok o' =>
        rw [hac] at ho
        rw [iha s c o' hac]
        cases o' with
        | none => exact ho
        | some r => exact ihb r d o ho

namespace Store

variable {s : Store} {x : Var} {t u v a : Term} {m n : Nat} {o : Option Store}

/-- An outcome within a budget is the outcome within the next larger one. -/
theorem meetWithin_succ (n : Nat) :
    ∀ s u v o, meetWithin n s u v = .ok o → meetWithin (n + 1) s u v = .ok o := by
  induction n with
  | zero => exact fun _ _ _ _ h => nomatch h
  | succ n ih =>
    intro s u v o h
    rw [meetWithin] at h ⊢
    -- the smaller budget is spent on pairs alone
    generalize s.walk u = a at h ⊢
    generalize s.walk v = b at h ⊢
    cases a with
    | error => exact h
    | ok a =>
      cases b with
      | error => cases a <;> exact h
      | ok b =>
        cases a with
        | var => exact h
        | nil | sym => cases b <;> exact h
        | pair =>
          cases b with
          | pair => exact Term.unifyBy_mono ih _ _ _ _ h
          | var | nil | sym => exact h

/-- An outcome within a budget is the outcome within every larger one. -/
theorem meetWithin_mono (hnm : n ≤ m) :
    ∀ s u v o, meetWithin n s u v = .ok o → meetWithin m s u v = .ok o := by
  induction hnm with
  | refl => exact fun _ _ _ _ h => h
  | step _ ih => exact fun s u v o h => meetWithin_succ _ s u v o (ih s u v o h)

/-! ## Chains of bindings -/

/-- After so many successful lookups the chain of bindings from the first term ends at the second
one, which is no bound variable. -/
inductive WalksIn (s : Store) : Nat → Term → Term → Prop
  | stop {u : Term} (h : ∀ z, u = .var z → s.lookup z = none) : WalksIn s 0 u u
  | follow {n : Nat} {z : Var} {u b : Term} (hz : s.lookup z = some u) (h : WalksIn s n u b) :
    WalksIn s (n + 1) (.var z) b

/-- A walk takes one term more than it has lookups. -/
theorem WalksIn.walkWithin_eq (h : s.WalksIn n t a) (hm : n < m) : s.walkWithin m t = .ok a := by
  induction h generalizing m with
  | @stop u h =>
    obtain ⟨m, rfl⟩ := Nat.exists_eq_succ_of_ne_zero (Nat.ne_of_gt hm)
    cases u with
    | var z => simp only [walkWithin, h z rfl]
    | nil | sym | pair => rfl
  | follow hz _ ih =>
    obtain ⟨m, rfl⟩ := Nat.exists_eq_succ_of_ne_zero (Nat.ne_of_gt (Nat.zero_lt_of_lt hm))
    simp only [walkWithin, hz]
    exact ih (Nat.lt_of_succ_lt_succ hm)

/-- A chain from a term has no more lookups than the depths of its variables allow. -/
theorem Acyclic.exists_walksIn (hs : s.Acyclic) (t : Term) :
    ∃ n a, s.WalksIn n t a ∧ ∀ d, (∀ y ∈ t.vars, s.depth y ≤ d) → n ≤ d := by
  induction t using hs.termInduction with
  | nil | sym | pair => exact ⟨0, _, .stop nofun, fun d _ => Nat.zero_le d⟩
  | unbound x hx => exact ⟨0, _, .stop fun z hz => by cases hz; exact hx, fun d _ => Nat.zero_le d⟩
  | bound x u hx ih =>
    obtain ⟨n, a, hwalk, hn⟩ := ih
    refine ⟨n + 1, a, .follow hx hwalk, fun d hd => ?_⟩
    have hxd : s.depth x < d + 1 := Nat.lt_succ_of_le (hd x (by simp))
    have ⟨hlt, hpos⟩ := hs.depth_lt_of_bound hx hxd
    have hle : n ≤ d - 1 := hn (d - 1) fun y hy => by
      have := hlt y hy
      omega
    omega

/-- A chain looks up every bound variable at most once. -/
theorem depth_le_card_domain (s : Store) (x : Var) : s.depth x ≤ s.domain.card := by
  classical
  exact Finset.card_filter_le _ _

/-! ## The main statement -/

/-- In an acyclic store every operation comes to an end. A walk stops after at most as many successful
lookups as there are bound variables, and the other operations have an outcome, which is the same
for every larger budget. -/
theorem operations_end (s : Store) (hs : s.Acyclic) (t u v : Term) (x : Var) :
    (∃ n a, n ≤ s.domain.card ∧ s.WalksIn n t a ∧ s.walk t = .ok a) ∧
      (∃ a, s.walkStar t = .ok a ∧ ∀ m ≥ s.pathBound, s.walkStarWithin m [] t = .ok a) ∧
      (∃ b, s.occurs x t = .ok b ∧ ∀ m ≥ s.pathBound, s.occursWithin x m t = .ok b) ∧
      (∃ r, s.nameOpen t = .ok r ∧ ∀ m ≥ s.pathBound + 1, nameOpenWithin m s t = .ok r) ∧
      ∃ o, s.unify u v = .ok o ∧
        ∀ m ≥ s.unifyBound u v, Term.unifyBy (meetWithin m) s u v = .ok o := by
  have hdepth : ∀ {m : Nat}, m ≥ s.pathBound → (∀ y ∈ t.vars, s.depth y < m) ∧ 0 < m := fun hm =>
    ⟨fun y _ => Nat.lt_of_lt_of_le (s.depth_lt_pathBound y) hm, Nat.lt_of_lt_of_le (Nat.succ_pos _) hm⟩
  refine ⟨?_, ?_, ?_, ?_, ?_⟩
  · obtain ⟨n, a, hwalk, hn⟩ := hs.exists_walksIn t
    have hcard : n ≤ s.domain.card := hn _ fun y _ => s.depth_le_card_domain y
    have hbound : n < s.pathBound := Nat.lt_succ_of_le (Nat.le_trans hcard s.card_domain_le_load)
    exact ⟨n, a, hcard, hwalk, hwalk.walkWithin_eq hbound⟩
  · exact ⟨_, hs.walkStar_eq t, fun m hm => hs.walkStarWithin_eq t m (hdepth hm).1 (hdepth hm).2⟩
  · exact ⟨_, hs.occurs_eq x t, fun m hm => hs.occursWithin_eq x t m (hdepth hm).1 (hdepth hm).2⟩
  · refine ⟨_, hs.nameOpen_eq t, fun m hm => ?_⟩
    obtain ⟨m, rfl⟩ := Nat.exists_eq_add_of_le' (Nat.le_trans (Nat.le_add_left 1 _) hm)
    have ⟨hd, hpos⟩ := hdepth (Nat.le_of_succ_le_succ hm)
    exact hs.nameOpenWithin_eq t [] m List.nodup_nil (fun _ h => nomatch h) hd hpos
  · obtain ⟨o, ho, -⟩ := hs.unify_eq u v
    exact ⟨o, ho, fun m hm => Term.unifyBy_mono (meetWithin_mono hm) u s v o ho⟩

/-- Where `x` is bound to `,y` and `y` to `(,z . ,z)`, a walk from `,x` has at most two lookups, and
unifying `,x` with `(a . ,w)` binds `z` and, looking at the second `,z` in the store that comes out
of that, `w`. -/
theorem operations_end_chain :
    let s := (empty.push ⟨"y"⟩ (.pair (.named "z") (.named "z"))).push ⟨"x"⟩ (.named "y")
    let v := Term.pair (.sym "a") (.named "w")
    s.Acyclic ∧ (∃ n ≤ 2, s.WalksIn n (.named "x") (.pair (.named "z") (.named "z"))) ∧
      ∀ m ≥ s.unifyBound (.named "x") v, Term.unifyBy (meetWithin m) s (.named "x") v =
        .ok (some ((s.push ⟨"z"⟩ (.sym "a")).push ⟨"w"⟩ (.sym "a"))) := by
  intro s v
  have hs : s.Acyclic := (acyclic_empty.push rfl (by decide)).push rfl (by decide +kernel)
  obtain ⟨⟨n, a, hn, hwalk, ha⟩, -, -, -, o, ho, hunify⟩ :=
    operations_end s hs (.named "x") (.named "x") v ⟨"x"⟩
  have hwalk' : s.walk (.named "x") = .ok (.pair (.named "z") (.named "z")) := rfl
  have ho' : s.unify (.named "x") v =
      .ok (some ((s.push ⟨"z"⟩ (.sym "a")).push ⟨"w"⟩ (.sym "a"))) := by decide +kernel
  rw [hwalk'] at ha
  rw [ho'] at ho
  cases ha
  cases ho
  exact ⟨hs, ⟨n, hn, hwalk⟩, hunify⟩

end Store

end Relational
