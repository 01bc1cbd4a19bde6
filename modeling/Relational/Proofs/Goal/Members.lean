import Relational.Proofs.Goal.QueryAnswers

/-!
# Members of lists

Every turn of `membero` looks at one item (`Definition.exists_turns_membero`): there is an answer in
which it is the item in question, and the search goes on with what follows. In a list that is known the
turns come to its end (`Definition.shows_membero`). Of a list that is asked for, every turn makes
one item more known, and there is no end to that (`Definition.shows_membero_open`); the items
before the one in question are open and are shown by the numbers of their places (`Term.holding`).
-/

namespace Relational

open LazyStream

variable {α : Type} {p : Program} {n c k i : Nat} {s : State} {t x l e : Term} {xs : List Term}

/-! ## Lists of which the beginning is known -/

namespace Term

/-- The list of the terms that come before the number `i`, and then of `e`, that ends in the term of the
number `i`. -/
def holding (f : Nat → Term) (e : Term) (i : Nat) : Term :=
  listWithTail ((List.range i).map f ++ [e]) (f i)

theorem holding_congr {f f' : Nat → Term} (h : ∀ j ≤ i, f j = f' j) :
    holding f e i = holding f' e i := by
  have hmap : (List.range i).map f = (List.range i).map f' :=
    List.map_congr_left fun j hj => h j (List.mem_range.1 hj).le
  rw [holding, holding, hmap, h i (Nat.le_refl i)]

theorem mapVars_holding (he : e.Ground) (σ : Valuation) (f : Nat → Term) :
    (holding f e i).mapVars σ = holding (fun j => (f j).mapVars σ) e i := by
  rw [holding, mapVars_listWithTail, List.map_append, List.map_map, List.map_singleton,
    he.mapVars_eq]
  rfl

/-- When the terms are different variables, they have their numbers for names. -/
theorem canonical_holding (he : e.Ground) :
    (holding (fun j => var (.fresh j)) e i).canonical = holding reifiedName e i := by
  have hflat : ((List.range i).map fun j => var (.fresh j)).flatMap vars =
      (List.range i).map Var.fresh := by
    rw [List.flatMap_map, List.map_eq_flatMap]
    rfl
  have hvars : (holding (fun j => var (.fresh j)) e i).vars = (List.range (i + 1)).map Var.fresh := by
    rw [holding, vars_listWithTail, List.flatMap_append, hflat, List.flatMap_singleton, he,
      List.append_nil, List.range_succ, List.map_append]
    rfl
  have hnodup : ((List.range (i + 1)).map Var.fresh).Nodup :=
    List.nodup_range.map fun _ _ => Var.fresh_injective
  rw [canonical, hvars, Var.distinctFrom_of_nodup hnodup, mapVars_holding he]
  refine holding_congr fun j hj => congrArg reifiedName ?_
  have hlt : j < ((List.range (i + 1)).map Var.fresh).length := by
    rw [List.length_map, List.length_range]
    omega
  have hidx := hnodup.idxOf_getElem j hlt
  rwa [List.getElem_map, List.getElem_range] at hidx

/-- The list `a` goes on with `l` behind its first `i` items. -/
def Follows (i : Nat) (a l : Term) : Prop := ∃ f, a = listWithTail ((List.range i).map f) l

theorem map_update_range (f : Nat → Term) (t : Term) :
    (List.range i).map (Function.update f i t) = (List.range i).map f :=
  List.map_congr_left fun _ hj => Function.update_of_ne (List.mem_range.1 hj).ne t f

theorem follows_zero {a : Term} : Follows 0 a l ↔ a = l :=
  ⟨fun ⟨_, h⟩ => h, fun h => ⟨fun _ => .nil, h⟩⟩

theorem follows_succ {a : Term} : Follows (i + 1) a l ↔ ∃ y, Follows i a (pair y l) := by
  have hsucc : ∀ f : Nat → Term, listWithTail ((List.range (i + 1)).map f) l =
      listWithTail ((List.range i).map f) (pair (f i) l) := by
    intro f
    rw [List.range_succ, List.map_append]
    exact listWithTail_concat ..
  constructor
  · rintro ⟨f, rfl⟩
    exact ⟨f i, f, hsucc f⟩
  · rintro ⟨y, f, rfl⟩
    refine ⟨Function.update f i y, ?_⟩
    rw [hsucc, map_update_range, Function.update_self]

/-- The lists that have `e` behind their first `i` items are the instances of one term. -/
theorem exists_follows_iff (he : e.Ground) {a : Term} :
    (∃ d, Follows i a (pair e d)) ↔
      ∃ τ, (holding (fun j => var (.fresh j)) e i).mapVars τ = a := by
  have hholding : ∀ f, holding f e i = listWithTail ((List.range i).map f) (pair e (f i)) :=
    fun f => listWithTail_concat ..
  have hinj : Function.Injective Var.fresh := fun _ _ => Var.fresh_injective
  constructor
  · rintro ⟨d, f, rfl⟩
    let τ : Valuation := Function.extend Var.fresh (Function.update f i d) var
    have hτ : (fun j => (var (.fresh j)).mapVars τ) = Function.update f i d :=
      funext fun j => hinj.extend_apply _ _ j
    refine ⟨τ, ?_⟩
    rw [mapVars_holding he, hτ, hholding, map_update_range, Function.update_self]
  · rintro ⟨τ, rfl⟩
    rw [mapVars_holding he, hholding]
    exact ⟨_, _, rfl⟩

end Term

namespace Definition

/-- A turn of `membero`: an answer in which the item is the first one of the list, and then the same for
what follows in the list. -/
theorem exists_turns_membero {q : Valuation → α} {R : α → Term → Term → Prop}
    (hs : s.Ranges c (fun σ => (q σ, x.mapVars σ, l.mapVars σ)) fun v => R v.1 v.2.1 v.2.2)
    (hc : c + 2 ≤ counterMax) :
    ∃ o o', membero.Turns p n [x, l] s o [x, .var (.fresh c)] o' ∧
      Outcome (c + 1) q (fun a => ∃ y d, R a y (.pair y d)) o ∧
      Outcome (c + 2) (fun σ => (q σ, x.mapVars σ, σ (.fresh c)))
        (fun v => ∃ y, R v.1 v.2.1 (.pair y v.2.2)) o' := by
  let ρ := Scope.ofArgs membero.params [x, l]
  obtain ⟨o, hcaro, ho⟩ : ∃ o : Option State,
      (Goal.call .caro [.named "l", .named "x"]).Unwinds p n ρ s (ofList o.toList) ∧
      Outcome (c + 1) _
        (fun v : α × Term × Term => R v.1 v.2.1 v.2.2 ∧ ∃ d, .pair v.2.1 d = v.2.2) o :=
    hs.exists_caro (by omega) (fun _ => rfl) fun _ => rfl
  -- in the second branch, what follows in the list is allocated first
  obtain ⟨b, hfresh, hb⟩ := hs.fresh (by omega)
  let ρ' := (⟨"d"⟩, .var (.fresh c)) :: ρ
  obtain ⟨o', hcdro, ho'⟩ : ∃ o' : Option State,
      (Goal.call .cdro [.named "l", .named "d"]).Unwinds p n ρ' b (ofList o'.toList) ∧
      Outcome (c + 2) _ (fun v : Term × α × Term × Term =>
        R v.2.1 v.2.2.1 v.2.2.2 ∧ ∃ y, .pair y v.1 = v.2.2.2) o' :=
    hb.exists_cdro (by omega) (fun _ => rfl) fun _ => rfl
  have hrest := hcdro.conj_call ho'.acyclic .membero [.named "x", .named "d"]
  obtain ⟨first, ⟨log, hfirst⟩, hforces⟩ := hcaro.exists_disj (hrest.fresh hfresh)
  refine ⟨o, o', ⟨3, 0, _, .force rfl hfirst hforces, .refl⟩,
    ho.map Prod.fst (fun _ => rfl) ?_ ?_,
    ho'.map (fun v => (v.2.1, v.2.2.1, v.1)) (fun _ => rfl) ?_ ?_⟩
  · exact fun (a, y, l) ⟨h, d, heq⟩ => ⟨y, d, heq ▸ h⟩
  · exact fun a ⟨y, d, h⟩ => ⟨(a, y, .pair y d), ⟨h, d, rfl⟩, rfl⟩
  · exact fun (d, a, x, l) ⟨h, y, heq⟩ => ⟨y, heq ▸ h⟩
  · exact fun (a, x, d) ⟨y, h⟩ => ⟨(d, a, x, .pair y d), ⟨h, y, rfl⟩, rfl⟩

/-- The items of a list that is known are tried one after the other. The values that go with an item are
shown as the term that has them for instances, if there are any. -/
theorem shows_membero {Q : Term → Term → Prop} (shown : Term → Option Term)
    (hQ : ∀ y ∈ xs, ∀ a, Q a y ↔ ∃ u ∈ shown y, ∃ τ, u.mapVars τ = a)
    (hs : s.Ranges c (fun σ => (t.mapVars σ, x.mapVars σ, l.mapVars σ))
      fun v => Q v.1 v.2.1 ∧ v.2.2 = .list xs)
    (hc : c + 2 * xs.length + 2 ≤ counterMax) :
    Shows p n .all t (membero.suspended [x, l] s) ((xs.filterMap shown).map Term.canonical) := by
  induction xs generalizing s c l with
  | nil =>
    obtain ⟨o, o', hturns, ho, ho'⟩ := exists_turns_membero (p := p) (n := n)
      (R := fun a y l => Q a y ∧ l = .list []) hs (by omega)
    obtain rfl := ho.eq_none (by rintro a ⟨y, d, -, ⟨⟩⟩)
    obtain rfl := ho'.eq_none (by rintro a ⟨y, -, ⟨⟩⟩)
    exact hturns.shows rfl .nil shows_resumed_none
  | cons y ys ih =>
    obtain ⟨o, o', hturns, ho, ho'⟩ := exists_turns_membero (p := p) (n := n)
      (R := fun a y' l => Q a y' ∧ l = .list (y :: ys)) hs (by omega)
    have ⟨hy, hys⟩ := List.forall_mem_cons.1 hQ
    have hfirst : List.Forall₂ (fun b u => b.reify t = .ok u) o.toList
        ((shown y).map Term.canonical).toList := by
      refine ho.forall₂_reify (shown y) fun a => ?_
      rw [← hy a]
      simp [Term.pair_eq_list_iff]
    have hrest : Shows p n .all t (membero.resumed [x, .var (.fresh c)] o')
        ((ys.filterMap shown).map Term.canonical) := by
      cases ho' with
      | @reached b hb =>
        have hb' : b.Ranges (c + 2) _ fun v : Term × Term × Term => Q v.1 v.2.1 ∧ v.2.2 = .list ys :=
          hb.congr fun v => by simp [Term.pair_eq_list_iff]
        rw [List.length_cons] at hc
        exact shows_resumed_some (ih (l := .var (.fresh c)) hys hb' (by omega))
      | void hno =>
        have hnone : ys.filterMap shown = [] := List.filterMap_eq_nil_iff.2 fun y' hy' =>
          Option.eq_none_iff_forall_not_mem.2 fun u hu =>
            hno (u, y', .list ys) ⟨y, (hys y' hy' u).2 ⟨u, hu, .var, u.mapVars_var_self⟩, rfl⟩
        rw [hnone]
        exact shows_resumed_none
    have hsplit : ((y :: ys).filterMap shown).map Term.canonical =
        ((shown y).map Term.canonical).toList ++ (ys.filterMap shown).map Term.canonical := by
      rw [List.filterMap_cons]
      cases shown y <;> rfl
    rw [hsplit]
    exact hturns.shows rfl hfirst hrest

/-- Of a list about which nothing is known, one item more is known after every turn, and every turn has an
answer. -/
theorem shows_membero_open (he : e.Ground)
    (hs : s.Ranges c (fun σ => (t.mapVars σ, x.mapVars σ, l.mapVars σ))
      fun v => v.2.1 = e ∧ v.1.Follows i v.2.2)
    (hc : c + 2 * k ≤ counterMax) :
    Shows p n (.atMost k) t (membero.suspended [x, l] s)
      ((List.range' i k).map (Term.holding reifiedName e)) := by
  induction k generalizing s c l i with
  | zero => exact shows_of_reached rfl
  | succ k ih =>
    obtain ⟨o, o', hturns, ho, ho'⟩ := exists_turns_membero (p := p) (n := n)
      (R := fun a y l => y = e ∧ Term.Follows i a l) hs (by omega)
    have hfirst : List.Forall₂ (fun b u => b.reify t = .ok u) o.toList
        [Term.holding reifiedName e i] := by
      rw [← Term.canonical_holding he]
      refine ho.forall₂_reify (some _) fun a => ?_
      simp only [Option.mem_some_iff, exists_eq_left', ← Term.exists_follows_iff he]
      exact ⟨fun ⟨_, d, rfl, h⟩ => ⟨d, h⟩, fun ⟨d, h⟩ => ⟨e, d, rfl, h⟩⟩
    obtain ⟨b, rfl, hb⟩ := ho'.exists_eq_some
      (a := (.listWithTail ((List.range i).map fun _ => .nil) (.pair .nil .nil), e, .nil))
      ⟨.nil, rfl, _, rfl⟩
    have hb' : b.Ranges (c + 2) _ fun v : Term × Term × Term => v.2.1 = e ∧ v.1.Follows (i + 1) v.2.2 :=
      hb.congr fun v => exists_and_left.trans (and_congr_right' Term.follows_succ.symm)
    have hrest := ih (l := .var (.fresh c)) hb' (by omega)
    exact hturns.shows rfl hfirst (shows_resumed_some hrest)

end Definition

/-! ## Queries -/

/-- Keeping one thing for every item that is `e` repeats it as often as there is such an item. -/
theorem filterMap_ite_eq (u : Term) :
    (xs.filterMap fun y => if y = e then some u else none) = List.replicate (xs.count e) u := by
  induction xs with
  | nil => rfl
  | cons y ys ih =>
    by_cases h : y = e
    · simp [h, ih, List.replicate_succ]
    · simp [h, ih, List.count_cons_of_ne h]

namespace Query

variable {y : Var}

/-- The members of a list are its items. -/
theorem exists_run_members (hxs : ∀ t ∈ xs, t.Ground) (hc : 2 * xs.length + 3 ≤ counterMax) :
    ∃ N, ∀ rounds ≥ N, ∃ log,
      (one y [.call .membero [.var y, .list xs]]).run p rounds .all = .value xs log := by
  have hlist : (Term.list xs).Ground := Term.ground_listWithTail hxs rfl
  have hargs : [.var y, .list xs].map (Scope.instantiate [(y, .var (.fresh 0))]) =
      [.var (.fresh 0), .list xs] := by
    simp [Scope.instantiate_var_self, Scope.instantiate_ground hlist]
  refine exists_run_one hargs fun b hb => ?_
  have hb' : b.Ranges 1 (fun σ => (σ (.fresh 0), σ (.fresh 0), (Term.list xs).mapVars σ))
      fun v => v.1 = v.2.1 ∧ v.2.2 = .list xs :=
    hb.map (fun a => (a, a, .list xs)) (fun σ => by rw [hlist.mapVars_eq])
      (fun _ _ => ⟨rfl, rfl⟩)
      fun (a, _, _) ⟨hy, hl⟩ => ⟨a, trivial, Prod.ext rfl (Prod.ext hy hl.symm)⟩
  have hQ : ∀ y ∈ xs, ∀ a, a = y ↔ ∃ u ∈ some y, ∃ τ, u.mapVars τ = a := fun y hy a => by
    simp [(hxs y hy).mapVars_eq, eq_comm]
  have hshows := Definition.shows_membero (p := p) (n := 0) (t := .var (.fresh 0))
    (x := .var (.fresh 0)) some hQ hb' (by omega)
  have hmap : (xs.filterMap some).map Term.canonical = xs := by
    rw [List.filterMap_some, List.map_congr_left fun y hy => (hxs y hy).canonical_eq]
    exact List.map_id xs
  rwa [hmap] at hshows

/-- There is an answer for every place at which the list has the item. -/
theorem exists_run_occurrences (hxs : ∀ t ∈ xs, t.Ground) (he : e.Ground)
    (hc : 2 * xs.length + 3 ≤ counterMax) :
    ∃ N, ∀ rounds ≥ N, ∃ log, (one y [.call .membero [e, .list xs]]).run p rounds .all =
      .value (List.replicate (xs.count e) (reifiedName 0)) log := by
  have hlist : (Term.list xs).Ground := Term.ground_listWithTail hxs rfl
  have hargs : [e, .list xs].map (Scope.instantiate [(y, .var (.fresh 0))]) = [e, .list xs] := by
    simp [Scope.instantiate_ground he, Scope.instantiate_ground hlist]
  refine exists_run_one hargs fun b hb => ?_
  have hb' : b.Ranges 1 (fun σ => (σ (.fresh 0), e.mapVars σ, (Term.list xs).mapVars σ))
      fun v => v.2.1 = e ∧ v.2.2 = .list xs :=
    hb.map (fun a => (a, e, .list xs)) (fun σ => by rw [he.mapVars_eq, hlist.mapVars_eq])
      (fun _ _ => ⟨rfl, rfl⟩)
      fun (a, _, _) ⟨hy, hl⟩ => ⟨a, trivial, Prod.ext rfl (Prod.ext hy.symm hl.symm)⟩
  let shown (y : Term) : Option Term := if y = e then some (.var (.fresh 0)) else none
  have hQ : ∀ y ∈ xs, ∀ a : Term, y = e ↔ ∃ u ∈ shown y, ∃ τ, u.mapVars τ = a := by
    intro y _ a
    constructor
    · intro h
      exact ⟨.var (.fresh 0), if_pos h, fun _ => a, rfl⟩
    · rintro ⟨u, hu, -⟩
      by_contra h
      rw [show shown y = none from if_neg h] at hu
      cases hu
  have hshows := Definition.shows_membero (p := p) (n := 0) (t := .var (.fresh 0)) (x := e)
    shown hQ hb' (by omega)
  have hmap : (xs.filterMap shown).map Term.canonical =
      List.replicate (xs.count e) (reifiedName 0) := by
    rw [filterMap_ite_eq, List.map_replicate]
    rfl
  rwa [hmap] at hshows

/-- The lists that have the item are those that have it in some place. -/
theorem exists_run_lists (he : e.Ground) (hc : 2 * k < counterMax) :
    ∃ N, ∀ rounds ≥ N, ∃ log, (one y [.call .membero [e, .var y]]).run p rounds (.atMost k) =
      .value ((List.range k).map (Term.holding reifiedName e)) log := by
  have hargs : [e, .var y].map (Scope.instantiate [(y, .var (.fresh 0))]) =
      [e, .var (.fresh 0)] := by
    simp [Scope.instantiate_ground he, Scope.instantiate_var_self]
  refine exists_run_one hargs fun b hb => ?_
  have hb' : b.Ranges 1 (fun σ => (σ (.fresh 0), e.mapVars σ, σ (.fresh 0)))
      fun v => v.2.1 = e ∧ v.1.Follows 0 v.2.2 :=
    hb.map (fun a => (a, e, a)) (fun σ => by rw [he.mapVars_eq])
      (fun _ _ => ⟨rfl, Term.follows_zero.2 rfl⟩)
      fun (a, _, _) ⟨hy, hl⟩ => ⟨a, trivial, Prod.ext rfl (Prod.ext hy.symm (Term.follows_zero.1 hl))⟩
  rw [List.range_eq_range']
  exact Definition.shows_membero_open (t := .var (.fresh 0)) (l := .var (.fresh 0)) he hb'
    (by omega)

end Query

/-! ## The main statement -/

/-- Asked for the members of a list of ground terms, the search gives its items in their order; asked
whether a ground term is a member, it gives one answer for every place at which the list has it; and
asked for the lists that have a ground term for a member, it gives those that begin with it, those that
have it behind one item, and so on, for as long as answers are wanted. The searches of lists end. -/
theorem membero_enumerates (p : Program) (x : Var) (xs : List Term) (hxs : ∀ t ∈ xs, t.Ground) :
    (2 * xs.length + 3 ≤ counterMax →
      (∃ N, ∀ rounds ≥ N, ∃ log,
        (Query.one x [.call .membero [.var x, .list xs]]).run p rounds .all = .value xs log) ∧
      ∀ e : Term, e.Ground → ∃ N, ∀ rounds ≥ N, ∃ log,
        (Query.one x [.call .membero [e, .list xs]]).run p rounds .all =
          .value (List.replicate (xs.count e) (reifiedName 0)) log) ∧
    ∀ e : Term, e.Ground → ∀ n, 2 * n < counterMax → ∃ N, ∀ rounds ≥ N, ∃ log,
      (Query.one x [.call .membero [e, .var x]]).run p rounds (.atMost n) =
        .value ((List.range n).map fun i =>
          .listWithTail ((List.range i).map reifiedName ++ [e]) (reifiedName i)) log :=
  ⟨fun hc => ⟨Query.exists_run_members hxs hc, fun _ he => Query.exists_run_occurrences hxs he hc⟩,
    fun _ he _ hn => Query.exists_run_lists he hn⟩

/-- In a list that has `a` twice, `a` is found twice. -/
theorem membero_enumerates_repeated :
    let xs : List Term := [.sym "a", .sym "b", .sym "a"]
    (∀ t ∈ xs, t.Ground) ∧ ∃ N, ∀ rounds ≥ N,
      (∃ log, (Query.one ⟨"q"⟩ [.call .membero [.named "q", .list xs]]).run [] rounds .all =
        .value xs log) ∧
      (∃ log, (Query.one ⟨"q"⟩ [.call .membero [.sym "a", .list xs]]).run [] rounds .all =
        .value [.sym "_.0", .sym "_.0"] log) ∧
      ∃ log, (Query.one ⟨"q"⟩ [.call .membero [.sym "a", .named "q"]]).run [] rounds (.atMost 2) =
        .value [.pair (.sym "a") (.sym "_.0"),
          .pair (.sym "_.0") (.pair (.sym "a") (.sym "_.1"))] log := by
  intro xs
  have hxs : ∀ t ∈ xs, t.Ground := by simp [xs, Term.Ground]
  obtain ⟨hlist, hopen⟩ := membero_enumerates [] ⟨"q"⟩ xs hxs
  obtain ⟨⟨N, hN⟩, hcount⟩ := hlist (by decide)
  obtain ⟨M, hM⟩ := hcount (.sym "a") rfl
  obtain ⟨K, hK⟩ := hopen (.sym "a") rfl 2 (by decide)
  have htwice : List.replicate (xs.count (.sym "a")) (reifiedName 0) = [.sym "_.0", .sym "_.0"] := by
    decide
  rw [htwice] at hM
  exact ⟨hxs, max N (max M K), fun rounds hrounds =>
    ⟨hN rounds (by omega), hM rounds (by omega), hK rounds (by omega)⟩⟩

end Relational
