import Relational.Proofs.Goal.QueryAnswers

/-!
# Concatenation of lists

Every turn of `appendo` moves one item (`Definition.exists_turns_appendo`): either the first list is
empty, and then the second one is the whole, or the first list and the whole begin with the same item.
When the first list is known, the turn in which it is at its end gives the one answer
(`Definition.shows_appendo_list`). When the whole is known, every turn gives an answer, since the
first list may end there (`Definition.shows_appendo_splits`).
-/

namespace Relational

open LazyStream

variable {α : Type} {p : Program} {n c : Nat} {s : State} {t u l m r : Term} {xs pre : List Term}

namespace Definition

/-- A turn of `appendo`: an answer in which the first list is empty and the second one is the third one,
and then the same for what follows in the first and in the third list behind the same item. -/
theorem exists_turns_appendo {q : Valuation → α} {R : α → Term → Term → Term → Prop}
    (hs : s.Ranges c (fun σ => (q σ, l.mapVars σ, m.mapVars σ, r.mapVars σ))
      fun v => R v.1 v.2.1 v.2.2.1 v.2.2.2) (hc : c + 3 ≤ counterMax) :
    ∃ o o', appendo.Turns p n [l, m, r] s o
        [.var (.fresh (c + 1)), m, .var (.fresh (c + 2))] o' ∧
      Outcome c q (fun a => ∃ m, R a .nil m m) o ∧
      Outcome (c + 3) (fun σ => (q σ, σ (.fresh (c + 1)), m.mapVars σ, σ (.fresh (c + 2))))
        (fun v => ∃ y, R v.1 (.pair y v.2.1) v.2.2.1 (.pair y v.2.2.2)) o' := by
  let ρ := Scope.ofArgs appendo.params [l, m, r]
  obtain ⟨o₀, hnullo, ho₀⟩ := hs.exists_nullo (p := p) (n := n) (ρ := ρ) (l := .named "l")
    (L := fun v => v.2.1) fun _ => rfl
  obtain ⟨o, _, hleft, rfl, ho⟩ := hnullo.exists_conj ho₀ (S := fun o st => st = ofList o.toList) rfl
    (fun b hb =>
      have ⟨o, hgives, ho⟩ := hb.exists_gives_eq (u := .named "s") (v := .named "out")
        (U := fun v => v.2.2.1) (V := fun v => v.2.2.2) (fun _ => rfl) fun _ => rfl
      ⟨o, _, hgives, ofList_option_append_empty o, ho⟩)
    fun v hv => ⟨v, hv.1⟩
  -- in the second branch, `a`, `d` and `res` are allocated first, and the last one is seen first
  obtain ⟨b₁, hfresh₁, hb₁⟩ := hs.fresh (by omega)
  obtain ⟨b₂, hfresh₂, hb₂⟩ := hb₁.fresh (by omega)
  obtain ⟨b₃, hfresh₃, hb₃⟩ := hb₂.fresh (by omega)
  let ρ' := (⟨"res"⟩, .var (.fresh (c + 2))) :: (⟨"d"⟩, .var (.fresh (c + 1))) ::
    (⟨"a"⟩, .var (.fresh c)) :: ρ
  obtain ⟨o₁, hfirst, ho₁⟩ := hb₃.exists_conso (p := p) (n := n) (ρ := ρ') (a := .named "a")
    (d := .named "d") (l := .named "l") (A := fun v => v.2.2.1) (D := fun v => v.2.1)
    (L := fun v => v.2.2.2.2.1) (fun _ => rfl) (fun _ => rfl) fun _ => rfl
  obtain ⟨o', next, hright, ⟨k, hnext⟩, ho'⟩ := hfirst.exists_conj ho₁
    (S := fun o st => ∃ k, ForcesTo (Closure.run p (n + 1)) st k
      (appendo.resumed [.var (.fresh (c + 1)), m, .var (.fresh (c + 2))] o)) ⟨0, .refl⟩
    (fun b hb =>
      have ⟨o', hsecond, ho'⟩ := hb.exists_conso (p := p) (n := n) (ρ := ρ') (a := .named "a")
        (d := .named "res") (l := .named "out") (A := fun v => v.2.2.1) (D := fun v => v.1)
        (L := fun v => v.2.2.2.2.2.2) (fun _ => rfl) (fun _ => rfl) fun _ => rfl
      have ⟨part, hgives, hforces⟩ :=
        hsecond.conj_call ho'.acyclic .appendo [.named "d", .named "s", .named "res"]
      ⟨o', part, hgives, ⟨1, hforces.append_empty⟩, ho'⟩)
    fun v hv => ⟨v, hv.1⟩
  have hfresh := ((hright.fresh hfresh₃).fresh hfresh₂).fresh hfresh₁
  obtain ⟨first, ⟨log, hgives⟩, hforces⟩ := hleft.exists_disj hfresh
  refine ⟨o, o', ⟨3, k, next, .force rfl hgives hforces, hnext⟩, ho.map Prod.fst (fun _ => rfl) ?_ ?_,
    ho'.map (fun v => (v.2.2.2.1, v.2.1, v.2.2.2.2.2.1, v.1)) (fun _ => rfl) ?_ ?_⟩
  · rintro ⟨a, l, m, r⟩ ⟨⟨h, hl⟩, hm⟩
    obtain rfl : m = r := hm
    exact ⟨m, hl ▸ h⟩
  · exact fun a ⟨m, h⟩ => ⟨(a, .nil, m, m), ⟨⟨h, rfl⟩, rfl⟩, rfl⟩
  · exact fun (res, d, y, a, l, m, r) ⟨⟨h, hl⟩, hr⟩ => ⟨y, hl ▸ hr ▸ h⟩
  · exact fun (a, d, m, res) ⟨y, h⟩ =>
      ⟨(res, d, y, a, .pair y d, m, .pair y res), ⟨⟨h, rfl⟩, rfl⟩, rfl⟩

/-- The items of a first list that is known come to stand before the second one. -/
theorem shows_appendo_list (ht : t.Ground) (hxs : ∀ y ∈ pre ++ xs, y.Ground)
    (hs : s.Ranges c (fun σ => (u.mapVars σ, l.mapVars σ, m.mapVars σ, r.mapVars σ))
      fun v => v.1 = .listWithTail pre v.2.2.2 ∧ v.2.1 = .list xs ∧ v.2.2.1 = t)
    (hc : c + 3 * xs.length + 3 ≤ counterMax) :
    Shows p n .all u (appendo.suspended [l, m, r] s) [.listWithTail (pre ++ xs) t] := by
  induction xs generalizing s c l r pre with
  | nil =>
    obtain ⟨o, o', hturns, ho, ho'⟩ := exists_turns_appendo (p := p) (n := n)
      (R := fun a l m r => a = Term.listWithTail pre r ∧ l = .list [] ∧ m = t) hs hc
    obtain rfl := ho'.eq_none (by rintro v ⟨y, -, ⟨⟩, -⟩)
    have hfirst := ho.forall₂_reify_ground (Term.ground_listWithTail hxs ht) fun a => by
      rw [List.append_nil]
      exact ⟨fun ⟨m, ha, _, hm⟩ => hm ▸ ha, fun ha => ⟨t, ha, rfl, rfl⟩⟩
    exact hturns.shows rfl hfirst shows_resumed_none
  | cons y ys ih =>
    rw [List.length_cons] at hc
    obtain ⟨o, o', hturns, ho, ho'⟩ := exists_turns_appendo (p := p) (n := n)
      (R := fun a l m r => a = Term.listWithTail pre r ∧ l = .list (y :: ys) ∧ m = t) hs
      (by omega)
    obtain rfl := ho.eq_none (by rintro a ⟨m, -, ⟨⟩, -⟩)
    obtain ⟨b, rfl, hb⟩ := ho'.exists_eq_some
      (a := (.listWithTail pre (.pair y .nil), .list ys, t, .nil)) ⟨y, rfl, rfl, rfl⟩
    have hb' : b.Ranges (c + 3) _ fun v : Term × Term × Term × Term =>
        v.1 = .listWithTail (pre ++ [y]) v.2.2.2 ∧ v.2.1 = .list ys ∧ v.2.2.1 = t :=
      hb.congr fun v => by simp [Term.listWithTail_concat, Term.pair_eq_list_iff, and_assoc]
    rw [List.append_cons] at hxs ⊢
    have hrest := ih (l := .var (.fresh (c + 1))) (r := .var (.fresh (c + 2))) hxs hb' (by omega)
    exact hturns.shows rfl .nil (shows_resumed_some hrest)

/-- The way of taking a list apart that is found in one turn. -/
theorem forall₂_reify_split {o : Option State} (hxs : ∀ y ∈ pre ++ xs, y.Ground)
    (ho : Outcome c (fun σ => u.mapVars σ)
      (fun a => ∃ m, a = .list [.listWithTail pre .nil, m] ∧ m = .list xs) o) :
    List.Forall₂ (fun b a => b.reify u = .ok a) o.toList [.list [.list pre, .list xs]] := by
  have ⟨hpre, hxs⟩ := List.forall_mem_append.1 hxs
  have hground : Term.Ground (.list [.list pre, .list xs]) :=
    Term.ground_listWithTail (List.forall_mem_cons.2 ⟨Term.ground_listWithTail hpre rfl,
      List.forall_mem_singleton.2 (Term.ground_listWithTail hxs rfl)⟩) rfl
  exact ho.forall₂_reify_ground hground fun a =>
    ⟨fun ⟨m, ha, hm⟩ => hm ▸ ha, fun ha => ⟨_, ha, rfl⟩⟩

/-- A third list that is known is taken apart in every way, from the front to the back. -/
theorem shows_appendo_splits (hxs : ∀ y ∈ pre ++ xs, y.Ground)
    (hs : s.Ranges c (fun σ => (u.mapVars σ, l.mapVars σ, m.mapVars σ, r.mapVars σ))
      fun v => v.1 = .list [.listWithTail pre v.2.1, v.2.2.1] ∧ v.2.2.2 = .list xs)
    (hc : c + 3 * xs.length + 3 ≤ counterMax) :
    Shows p n .all u (appendo.suspended [l, m, r] s) ((List.range (xs.length + 1)).map fun i =>
      .list [.list (pre ++ xs.take i), .list (xs.drop i)]) := by
  induction xs generalizing s c l m r pre with
  | nil =>
    obtain ⟨o, o', hturns, ho, ho'⟩ := exists_turns_appendo (p := p) (n := n)
      (R := fun a l m r => a = Term.list [.listWithTail pre l, m] ∧ r = .list []) hs hc
    obtain rfl := ho'.eq_none (by rintro v ⟨y, -, ⟨⟩⟩)
    have hshows : Shows p n .all u _ _ :=
      hturns.shows rfl (forall₂_reify_split hxs ho) shows_resumed_none
    simpa using hshows
  | cons y ys ih =>
    rw [List.length_cons] at hc
    obtain ⟨o, o', hturns, ho, ho'⟩ := exists_turns_appendo (p := p) (n := n)
      (R := fun a l m r => a = Term.list [.listWithTail pre l, m] ∧ r = .list (y :: ys)) hs
      (by omega)
    have hfirst := forall₂_reify_split hxs ho
    obtain ⟨b, rfl, hb⟩ := ho'.exists_eq_some
      (a := (.list [.listWithTail pre (.pair y .nil), .nil], .nil, .nil, .list ys)) ⟨y, rfl, rfl⟩
    have hb' : b.Ranges (c + 3) _ fun v : Term × Term × Term × Term =>
        v.1 = .list [.listWithTail (pre ++ [y]) v.2.1, v.2.2.1] ∧ v.2.2.2 = .list ys :=
      hb.congr fun v => by simp [Term.listWithTail_concat, Term.pair_eq_list_iff]
    rw [List.append_cons] at hxs
    have hrest := ih (l := .var (.fresh (c + 1))) (r := .var (.fresh (c + 2))) hxs hb' (by omega)
    have hsplits : (List.range ((y :: ys).length + 1)).map (fun i =>
        Term.list [.list (pre ++ (y :: ys).take i), .list ((y :: ys).drop i)]) =
        [.list [.list pre, .list (y :: ys)]] ++ (List.range (ys.length + 1)).map fun i =>
          .list [.list (pre ++ [y] ++ ys.take i), .list (ys.drop i)] := by
      rw [List.range_succ_eq_map, List.map_cons, List.map_map, List.take_zero, List.append_nil]
      simp only [List.append_assoc]
      rfl
    rw [hsplits]
    exact hturns.shows rfl hfirst (shows_resumed_some hrest)

end Definition

/-! ## Queries -/

namespace Query

variable {x y : Var}

/-- A list and a term are put together by ending the list in the term. -/
theorem exists_run_concatenation (hxs : ∀ t ∈ xs, t.Ground) (ht : t.Ground)
    (hc : 3 * xs.length + 4 ≤ counterMax) :
    ∃ N, ∀ rounds ≥ N, ∃ log, (one x [.call .appendo [.list xs, t, .var x]]).run p rounds .all =
      .value [.listWithTail xs t] log := by
  have hlist : (Term.list xs).Ground := Term.ground_listWithTail hxs rfl
  have hargs : [.list xs, t, .var x].map (Scope.instantiate [(x, .var (.fresh 0))]) =
      [.list xs, t, .var (.fresh 0)] := by
    simp [Scope.instantiate_var_self, Scope.instantiate_ground hlist, Scope.instantiate_ground ht]
  refine exists_run_one hargs fun b hb => ?_
  have hb' : b.Ranges 1
      (fun σ => (σ (.fresh 0), (Term.list xs).mapVars σ, t.mapVars σ, σ (.fresh 0)))
      fun v => v.1 = .listWithTail [] v.2.2.2 ∧ v.2.1 = .list xs ∧ v.2.2.1 = t :=
    hb.map (fun a => (a, .list xs, t, a)) (fun σ => by rw [hlist.mapVars_eq, ht.mapVars_eq])
      (fun _ _ => ⟨rfl, rfl, rfl⟩)
      fun (a, _, _, _) ⟨ha, hl, hm⟩ => ⟨a, trivial,
        Prod.ext rfl (Prod.ext hl.symm (Prod.ext hm.symm ha))⟩
  exact Definition.shows_appendo_list (u := .var (.fresh 0)) (r := .var (.fresh 0)) ht hxs
    hb' (by omega)

/-- Two lists that together are a list are its first items and the rest of it. -/
theorem exists_run_splits (hxy : x ≠ y) (hxs : ∀ t ∈ xs, t.Ground)
    (hc : 3 * xs.length + 6 ≤ counterMax) :
    ∃ N, ∀ rounds ≥ N, ∃ log,
      (many [x, y] [.call .appendo [.var x, .var y, .list xs]]).run p rounds .all =
        .value ((List.range (xs.length + 1)).map fun i =>
          .list [.list (xs.take i), .list (xs.drop i)]) log := by
  have hlist : (Term.list xs).Ground := Term.ground_listWithTail hxs rfl
  have hargs : ∀ q, [.var x, .var y, .list xs].map (Scope.instantiate
      [(y, .var (.fresh 2)), (x, .var (.fresh 1)), (q, .var (.fresh 0))]) =
      [.var (.fresh 1), .var (.fresh 2), .list xs] := fun q => by
    simp [Scope.instantiate_var_of_ne hxy, Scope.instantiate_var_self,
      Scope.instantiate_ground hlist]
  refine exists_run_two hxy hargs fun b hb => ?_
  have hb' : b.Ranges 3 (fun σ => (σ (.fresh 0), σ (.fresh 1), σ (.fresh 2), (Term.list xs).mapVars σ))
      fun v => v.1 = .list [.listWithTail [] v.2.1, v.2.2.1] ∧ v.2.2.2 = .list xs :=
    hb.map (fun v => (v.1, v.2.1, v.2.2, .list xs)) (fun σ => by rw [hlist.mapVars_eq])
      (fun v h => ⟨h, rfl⟩)
      fun (a, l, m, _) ⟨ha, hr⟩ => ⟨(a, l, m), ha, Prod.ext rfl (Prod.ext rfl (Prod.ext rfl hr.symm))⟩
  exact Definition.shows_appendo_splits (u := .var (.fresh 0)) (l := .var (.fresh 1))
    (m := .var (.fresh 2)) hxs hb' (by omega)

end Query

/-! ## The main statement -/

/-- A list of ground terms and a ground term are put together in one way, and a list of `n` ground terms
is taken apart in `n + 1` ways, of which the one with the shortest first list comes first. Both searches
end. -/
theorem appendo_joins_and_splits (p : Program) (xs : List Term) (hxs : ∀ t ∈ xs, t.Ground) :
    (∀ x : Var, ∀ t : Term, t.Ground → 3 * xs.length + 4 ≤ counterMax →
      ∃ N, ∀ rounds ≥ N, ∃ log,
        (Query.one x [.call .appendo [.list xs, t, .var x]]).run p rounds .all =
          .value [.listWithTail xs t] log) ∧
    ∀ x y : Var, x ≠ y → 3 * xs.length + 6 ≤ counterMax →
      ∃ N, ∀ rounds ≥ N, ∃ log,
        (Query.many [x, y] [.call .appendo [.var x, .var y, .list xs]]).run p rounds .all =
          .value ((List.range (xs.length + 1)).map fun i =>
            .list [.list (xs.take i), .list (xs.drop i)]) log :=
  ⟨fun _ _ ht hc => Query.exists_run_concatenation hxs ht hc,
    fun _ _ hxy hc => Query.exists_run_splits hxy hxs hc⟩

/-- The lists `(a b)` and `(c)` are put together, and `(a b)` is taken apart in three ways. -/
theorem appendo_joins_and_splits_pair :
    let xs : List Term := [.sym "a", .sym "b"]
    (∀ t ∈ xs, t.Ground) ∧ ∃ N, ∀ rounds ≥ N,
      (∃ log, (Query.one ⟨"q"⟩ [.call .appendo [.list xs, .list [.sym "c"], .named "q"]]).run []
        rounds .all = .value [.list [.sym "a", .sym "b", .sym "c"]] log) ∧
      ∃ log, (Query.many [⟨"x"⟩, ⟨"y"⟩] [.call .appendo [.named "x", .named "y", .list xs]]).run []
        rounds .all = .value [.list [.nil, .list xs], .list [.list [.sym "a"], .list [.sym "b"]],
          .list [.list xs, .nil]] log := by
  intro xs
  have hxs : ∀ t ∈ xs, t.Ground := by simp [xs, Term.Ground]
  obtain ⟨hforwards, hbackwards⟩ := appendo_joins_and_splits [] xs hxs
  obtain ⟨N, hN⟩ := hforwards ⟨"q"⟩ (.list [.sym "c"]) rfl (by decide)
  obtain ⟨M, hM⟩ := hbackwards ⟨"x"⟩ ⟨"y"⟩ (by decide) (by decide)
  exact ⟨hxs, max N M, fun rounds hrounds => ⟨hN rounds (by omega), hM rounds (by omega)⟩⟩

end Relational
