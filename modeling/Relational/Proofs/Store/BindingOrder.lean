import Relational.Proofs.Store.Rebinding

/-!
# The order of bindings

`Store.ofBindings` adds the bindings of a list one by one, the last one first, and each of them is
checked against those behind it alone. Nevertheless its verdict is one about the whole list, at least
when no variable has two bindings: the list is refused precisely when its bindings close a cycle
(`ofBindings_eq`, `exists_refers_iff`), whichever of the members of the cycle comes last. For a cycle is
still one in the store of a longer list (`acyclic_of_unchecked_cons`), and the first binding that closes
one is seen, because its variable is unbound up to then (`extend_unchecked`). So the order of the
bindings is the order in which the store has them, and it matters neither for the verdict nor for what a
term stands for in the store (`ofBindings_unordered`).
-/

namespace Relational.Store

open Relation

variable {s r : Store} {x y : Var} {t : Term} {bs cs : List (Var × Term)}

/-! ## Lookups in any order -/

/-- Where no variable has two bindings, all bindings are found. -/
theorem BindsOnce.lookup_eq_some_iff (hs : s.BindsOnce) :
    s.lookup x = some t ↔ (x, t) ∈ s.bindings := by
  refine ⟨mem_bindings_of_lookup, fun hmem => ?_⟩
  obtain ⟨newer, older, hb⟩ := List.append_of_mem hmem
  refine List.lookup_eq_some_iff.2 ⟨newer, older, hb, fun e he => ?_⟩
  rw [BindsOnce, hb, List.map_append, List.nodup_append] at hs
  exact bne_iff_ne.2 (hs.2.2 e.1 (List.mem_map_of_mem he) x (by simp)).symm

/-- Two stores with the same bindings in different orders look all variables up alike, when no variable
has two of them. -/
theorem BindsOnce.lookup_eq_of_perm (hs : s.BindsOnce) (h : s.bindings.Perm r.bindings) (x : Var) :
    s.lookup x = r.lookup x := by
  have hr : r.BindsOnce := (h.map Prod.fst).nodup_iff.1 hs
  refine Option.ext fun t => ?_
  rw [hs.lookup_eq_some_iff, hr.lookup_eq_some_iff, h.mem_iff]

/-- Only lookups matter for cycles. -/
theorem Acyclic.of_lookup_eq (hs : s.Acyclic) (h : ∀ x, s.lookup x = r.lookup x) : r.Acyclic := by
  have hmentions : r.Mentions = s.Mentions := by
    funext x y
    rw [Mentions, Mentions, h x]
  rw [Acyclic, hmentions]
  exact hs

/-- Only lookups matter for what a term stands for. -/
theorem Acyclic.walkStar_eq_of_lookup_eq (hs : s.Acyclic) (h : ∀ x, s.lookup x = r.lookup x)
    (t : Term) : s.walkStar t = r.walkStar t := by
  have hr : r.Acyclic := hs.of_lookup_eq h
  have hsol : Valuation.Satisfies r.solution s := fun x u hx =>
    hr.solution_satisfies x u ((h x).symm.trans hx)
  rw [hs.walkStar_eq, hr.walkStar_eq, hs.mapVars_eq_solution hsol fun z hz => ?_]
  exact solution_of_unbound ((h z).symm.trans (hs.unbound_of_mem_vars t z hz))

/-! ## The bindings of a list -/

/-- The list has a binding of `x`, not to `x` itself, with the variable `y` in its value. -/
def Refers (bs : List (Var × Term)) (x y : Var) : Prop := ∃ t, (x, t) ∈ bs ∧ t ≠ .var x ∧ y ∈ t.vars

/-- The bindings but those of a variable to itself. -/
def effective (bs : List (Var × Term)) : List (Var × Term) := bs.filter fun b => b.2 ≠ .var b.1

/-- The store of the bindings but those of a variable to itself, which are not checked. -/
def unchecked (bs : List (Var × Term)) : Store := ⟨effective bs, _, rfl, _, rfl⟩

theorem unchecked_cons_of_eq (h : t = .var x) : unchecked ((x, t) :: bs) = unchecked bs :=
  have heffective : effective ((x, t) :: bs) = effective bs := List.filter_cons_of_neg (by simp [h])
  ext heffective

theorem unchecked_cons_of_ne (h : t ≠ .var x) : unchecked ((x, t) :: bs) = (unchecked bs).push x t :=
  have heffective : effective ((x, t) :: bs) = (x, t) :: effective bs :=
    List.filter_cons_of_pos (by simp [h])
  ext heffective

theorem bindsOnce_unchecked (h : (bs.map Prod.fst).Nodup) : (unchecked bs).BindsOnce :=
  h.sublist (List.filter_sublist.map Prod.fst)

/-- The variables of the store are those of the list. -/
theorem lookup_unchecked_eq_none (h : x ∉ bs.map Prod.fst) : (unchecked bs).lookup x = none := by
  cases hx : (unchecked bs).lookup x with
  | none => rfl
  | some t =>
    have hmem : (x, t) ∈ bs := List.mem_of_mem_filter (mem_bindings_of_lookup hx)
    exact absurd (List.mem_map_of_mem hmem) h

/-- The references in a list are the mentions in its store. -/
theorem refers_eq_mentions (h : (bs.map Prod.fst).Nodup) : Refers bs = (unchecked bs).Mentions := by
  funext x y
  have hmem : ∀ t, (unchecked bs).lookup x = some t ↔ (x, t) ∈ bs ∧ t ≠ .var x := fun t =>
    (bindsOnce_unchecked h).lookup_eq_some_iff.trans (by simp [unchecked, effective])
  simp only [Refers, Mentions, hmem, and_assoc]

/-- The bindings of a list close a cycle precisely when its store is not acyclic. -/
theorem exists_refers_iff (h : (bs.map Prod.fst).Nodup) :
    (∃ x, TransGen (Refers bs) x x) ↔ ¬ (unchecked bs).Acyclic := by
  rw [refers_eq_mentions h, Acyclic, not_forall_not]

/-- A cycle among the older bindings stays one. -/
theorem acyclic_of_unchecked_cons (hx : x ∉ bs.map Prod.fst)
    (h : (unchecked ((x, t) :: bs)).Acyclic) : (unchecked bs).Acyclic := by
  by_cases htx : t = .var x
  · rwa [unchecked_cons_of_eq htx] at h
  · rw [unchecked_cons_of_ne htx] at h
    exact (Extends.refl.push (lookup_unchecked_eq_none hx)).acyclic h

open Classical in
/-- Where the older bindings close no cycle, one more is refused unless all together close none. -/
theorem extend_unchecked (hs : (unchecked bs).Acyclic) (hx : x ∉ bs.map Prod.fst) (t : Term) :
    (unchecked bs).extend x t =
      .ok (if (unchecked ((x, t) :: bs)).Acyclic then some (unchecked ((x, t) :: bs)) else none) := by
  by_cases htx : t = .var x
  · rw [extend, if_pos htx, unchecked_cons_of_eq htx, if_pos hs]
  · rw [extend, if_neg htx, hs.occurs_eq]
    simp only [unchecked_cons_of_ne htx, hs.push_iff, hs.leadsTo_iff (lookup_unchecked_eq_none hx)]
    by_cases hocc : x ∈ (t.mapVars (unchecked bs).solution).vars <;> simp [hocc]

open Classical in
/-- A list in which no variable has two bindings is refused unless its bindings close no cycle. -/
theorem ofBindings_eq (h : (bs.map Prod.fst).Nodup) :
    ofBindings bs = .ok (if (unchecked bs).Acyclic then some (unchecked bs) else none) := by
  induction bs with
  | nil =>
    rw [if_pos (show (unchecked []).Acyclic from acyclic_empty)]
    rfl
  | cons b older ih =>
    obtain ⟨x, t⟩ := b
    obtain ⟨hx, hnodup⟩ := List.nodup_cons.1 h
    rw [ofBindings, ih hnodup]
    by_cases hs : (unchecked older).Acyclic
    · rw [if_pos hs]
      exact extend_unchecked hs hx t
    · rw [if_neg hs, if_neg (mt (acyclic_of_unchecked_cons hx) hs)]

/-! ## The main statement -/

/-- A list in which no variable has two bindings is refused precisely when its bindings, but those of a
variable to itself, close a cycle, and then it is refused in every order. Otherwise its store has the
bindings in their order, but those of a variable to itself, and every term stands for the same in the
stores of all orders. -/
theorem ofBindings_unordered (bs : List (Var × Term)) (hbs : (bs.map Prod.fst).Nodup) :
    ∃ o, ofBindings bs = .ok o ∧ (o = none ↔ ∃ x, TransGen (Refers bs) x x) ∧
      (o = none → ∀ cs, bs.Perm cs → ofBindings cs = .ok none) ∧
      ∀ s, o = some s →
        s.bindings = effective bs ∧ s.size = (effective bs).length ∧
        ∀ cs, bs.Perm cs → ∃ r, ofBindings cs = .ok (some r) ∧
          ∀ t, ∃ a, s.walkStar t = .ok a ∧ r.walkStar t = .ok a := by
  classical
  have hlookup : ∀ cs, bs.Perm cs → ∀ x, (unchecked bs).lookup x = (unchecked cs).lookup x :=
    fun cs h => (bindsOnce_unchecked hbs).lookup_eq_of_perm (h.filter _)
  have hnodup : ∀ cs, bs.Perm cs → (cs.map Prod.fst).Nodup := fun cs h =>
    (h.map Prod.fst).nodup_iff.1 hbs
  refine ⟨_, ofBindings_eq hbs, ?_⟩
  rw [exists_refers_iff hbs]
  by_cases hs : (unchecked bs).Acyclic
  · rw [if_pos hs]
    refine ⟨iff_of_false (fun h => nomatch h) (not_not_intro hs), (fun h => nomatch h), fun s h => ?_⟩
    cases h
    refine ⟨rfl, (unchecked bs).size_eq, fun cs hcs =>
      ⟨unchecked cs, ?_, fun t => ⟨_, hs.walkStar_eq t, ?_⟩⟩⟩
    · rw [ofBindings_eq (hnodup cs hcs), if_pos (hs.of_lookup_eq (hlookup cs hcs))]
    · rw [← hs.walkStar_eq_of_lookup_eq (hlookup cs hcs), hs.walkStar_eq]
  · rw [if_neg hs]
    refine ⟨iff_of_true rfl hs, fun _ cs hcs => ?_, fun s h => nomatch h⟩
    have hcyclic : ¬ (unchecked cs).Acyclic := fun hr =>
      hs (hr.of_lookup_eq fun x => (hlookup cs hcs x).symm)
    rw [ofBindings_eq (hnodup cs hcs), if_neg hcyclic]

/-- Where `x` is bound to `(,y . ,z)`, `z` to itself and `y` to `,w`, all terms stand for the same when
the bindings are made the other way round, although the stores differ. With `w` bound to `(,x)` besides,
the list is refused in every order. -/
theorem ofBindings_unordered_chain :
    let bs : List (Var × Term) := [(⟨"x"⟩, .pair (.named "y") (.named "z")), (⟨"z"⟩, .named "z"),
      (⟨"y"⟩, .named "w")]
    let s := (empty.push ⟨"y"⟩ (.named "w")).push ⟨"x"⟩ (.pair (.named "y") (.named "z"))
    let r := (empty.push ⟨"x"⟩ (.pair (.named "y") (.named "z"))).push ⟨"y"⟩ (.named "w")
    let ds := (⟨"w"⟩, .pair (.named "x") .nil) :: bs
    (bs.map Prod.fst).Nodup ∧ ofBindings bs = .ok (some s) ∧
      ofBindings bs.reverse = .ok (some r) ∧ s ≠ r ∧
      (∀ t, ∃ a, s.walkStar t = .ok a ∧ r.walkStar t = .ok a) ∧
      (ds.map Prod.fst).Nodup ∧ ∀ cs, ds.Perm cs → ofBindings cs = .ok none := by
  intro bs s r ds
  have hbs : (bs.map Prod.fst).Nodup := by decide
  have hds : (ds.map Prod.fst).Nodup := by decide
  have hs : ofBindings bs = .ok (some s) := by decide +kernel
  have hr : ofBindings bs.reverse = .ok (some r) := by decide +kernel
  obtain ⟨o, ho, -, -, hstore⟩ := ofBindings_unordered bs hbs
  obtain ⟨q, hq, hwalk⟩ :=
    (hstore s (Except.ok.inj (ho.symm.trans hs))).2.2 bs.reverse (List.reverse_perm bs).symm
  cases hq.symm.trans hr
  obtain ⟨o, -, hcycle, hrefused, -⟩ := ofBindings_unordered ds hds
  have hxy : Refers ds ⟨"x"⟩ ⟨"y"⟩ := ⟨.pair (.named "y") (.named "z"), by decide⟩
  have hyw : Refers ds ⟨"y"⟩ ⟨"w"⟩ := ⟨.named "w", by decide⟩
  have hwx : Refers ds ⟨"w"⟩ ⟨"x"⟩ := ⟨.pair (.named "x") .nil, by decide⟩
  have hnone : o = none := hcycle.2 ⟨⟨"x"⟩, .tail (.tail (.single hxy) hyw) hwx⟩
  exact ⟨hbs, hs, hr, by decide +kernel, hwalk, hds, hrefused hnone⟩

end Relational.Store
