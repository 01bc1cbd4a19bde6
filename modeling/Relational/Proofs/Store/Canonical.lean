import Mathlib.Data.List.Basic
import Mathlib.Data.Set.Function
import Mathlib.Logic.Equiv.Defs
import Relational.Proofs.Store.Extension
import Relational.Store.Reify

/-!
# Canonical terms

Naming the open variables of a term gives them numbers in the order in which they occur first, from
whatever store it starts (`nameOpen_numbers`, `Var.FirstOccurrences`), one walk at a time
(`Acyclic.nameOpen_eq_walk`). To reify a term the store starts empty, so a reified term is the term with
all bindings applied in which every variable is replaced by its numbered name (`Acyclic.reify_eq`,
`Term.canonical`). Renaming the variables of a term does not change its canonical form
(`canonical_rename`), and neither does any passage to an instance of which the term is an instance again
(`canonical_eq_of_instances`).

What is shown of a term therefore depends on the valuations that satisfy the store alone, and not
even on how these call the variables that the term does not mention: that is
`Acyclic.reify_eq_of_satisfies_iff`.
-/

namespace Relational

/-! ## Distinct variables in order -/

/-- The list with the variable at its end, unless it is there already. -/
def Var.insertNew (seen : List Var) (x : Var) : List Var := if x ∈ seen then seen else seen ++ [x]

/-- The distinct variables of a list after those seen before it, in the order of their first
occurrence. -/
def Var.distinctFrom (seen xs : List Var) : List Var := xs.foldl insertNew seen

namespace Var

variable {x : Var} {seen xs : List Var}

theorem insertNew_of_mem (h : x ∈ seen) : insertNew seen x = seen := if_pos h

theorem insertNew_of_not_mem (h : x ∉ seen) : insertNew seen x = seen ++ [x] := if_neg h

theorem mem_insertNew {y : Var} : y ∈ insertNew seen x ↔ y ∈ seen ∨ y = x := by
  by_cases h : x ∈ seen
  · rw [insertNew_of_mem h]
    exact ⟨.inl, fun hy => hy.elim id fun hyx => hyx ▸ h⟩
  · rw [insertNew_of_not_mem h, List.mem_append, List.mem_singleton]

theorem mem_distinctFrom {y : Var} : y ∈ distinctFrom seen xs ↔ y ∈ seen ∨ y ∈ xs := by
  induction xs generalizing seen with
  | nil => simp [distinctFrom]
  | cons x xs ih =>
    have : distinctFrom seen (x :: xs) = distinctFrom (insertNew seen x) xs := rfl
    rw [this, ih, mem_insertNew, List.mem_cons, or_assoc]

theorem nodup_distinctFrom (h : seen.Nodup) : (distinctFrom seen xs).Nodup := by
  induction xs generalizing seen with
  | nil => exact h
  | cons x xs ih =>
    have hnew : (insertNew seen x).Nodup := by
      by_cases hx : x ∈ seen
      · rwa [insertNew_of_mem hx]
      · rw [insertNew_of_not_mem hx]
        exact List.nodup_append.2 ⟨h, List.nodup_singleton x, fun y hy z hz hyz => hx (by
          rw [← List.mem_singleton.1 hz, ← hyz]; exact hy)⟩
    exact ih hnew

theorem distinctFrom_append (seen xs ys : List Var) :
    distinctFrom seen (xs ++ ys) = distinctFrom (distinctFrom seen xs) ys :=
  List.foldl_append

/-- Variables that differ from each other and from those before them are all new. -/
theorem distinctFrom_of_nodup (h : (seen ++ xs).Nodup) : distinctFrom seen xs = seen ++ xs := by
  induction xs generalizing seen with
  | nil => exact (List.append_nil seen).symm
  | cons x xs ih =>
    have hx : x ∉ seen := fun hmem =>
      (List.nodup_append.1 h).2.2 x hmem x List.mem_cons_self rfl
    have hcons : distinctFrom seen (x :: xs) = distinctFrom (insertNew seen x) xs := rfl
    rw [List.append_cons] at h ⊢
    rw [hcons, insertNew_of_not_mem hx, ih h]

/-- The second list has the variables of the first one, each of them once, in the order in which they
occur first. -/
structure FirstOccurrences (xs ys : List Var) : Prop where
  mem_iff : ∀ x, x ∈ ys ↔ x ∈ xs
  ordered : ys.Pairwise fun x y => xs.idxOf x < xs.idxOf y

theorem firstOccurrences_distinctFrom (xs : List Var) :
    FirstOccurrences xs (distinctFrom [] xs) := by
  have hmem : ∀ ys x, x ∈ distinctFrom [] ys ↔ x ∈ ys := fun ys x => by simp [mem_distinctFrom]
  refine ⟨hmem xs, ?_⟩
  induction xs using List.reverseRecOn with
  | nil => exact List.Pairwise.nil
  | append_singleton ys y ih =>
    -- the places of the variables that were there stay the same
    have hys : (distinctFrom [] ys).Pairwise fun x z => (ys ++ [y]).idxOf x < (ys ++ [y]).idxOf z := by
      refine ih.imp_of_mem fun hx hz hlt => ?_
      rwa [List.idxOf_append_of_mem ((hmem ys _).1 hx), List.idxOf_append_of_mem ((hmem ys _).1 hz)]
    rw [distinctFrom_append]
    change (insertNew (distinctFrom [] ys) y).Pairwise _
    by_cases hy : y ∈ distinctFrom [] ys
    · rwa [insertNew_of_mem hy]
    · rw [insertNew_of_not_mem hy, List.pairwise_append]
      refine ⟨hys, List.pairwise_singleton _ _, fun x hx z hz => ?_⟩
      obtain rfl := List.mem_singleton.1 hz
      have hx : x ∈ ys := (hmem ys x).1 hx
      rw [List.idxOf_append_of_mem hx, List.idxOf_append_of_notMem (mt (hmem ys z).2 hy)]
      exact Nat.lt_add_right _ (List.idxOf_lt_length_of_mem hx)

/-- A renaming keeps apart what it does not identify. -/
theorem insertNew_map {f : Var → Var} {S : Set Var} (hf : S.InjOn f) (hseen : ∀ y ∈ seen, y ∈ S)
    (hx : x ∈ S) : insertNew (seen.map f) (f x) = (insertNew seen x).map f := by
  by_cases h : x ∈ seen
  · rw [insertNew_of_mem h, insertNew_of_mem (List.mem_map_of_mem h)]
  · have hfx : f x ∉ seen.map f := by
      intro hmem
      obtain ⟨y, hy, hyx⟩ := List.mem_map.1 hmem
      exact h (hf (hseen y hy) hx hyx ▸ hy)
    rw [insertNew_of_not_mem h, insertNew_of_not_mem hfx, List.map_append, List.map_singleton]

theorem distinctFrom_map {f : Var → Var} {S : Set Var} (hf : S.InjOn f)
    (hseen : ∀ y ∈ seen, y ∈ S) (hxs : ∀ y ∈ xs, y ∈ S) :
    distinctFrom (seen.map f) (xs.map f) = (distinctFrom seen xs).map f := by
  induction xs generalizing seen with
  | nil => rfl
  | cons x xs ih =>
    have hx : x ∈ S := hxs x (by simp)
    have hseen' : ∀ y ∈ insertNew seen x, y ∈ S := by
      intro y hy
      exact (mem_insertNew.1 hy).elim (hseen y) fun hyx => hyx ▸ hx
    have := ih hseen' fun y hy => hxs y (by simp [hy])
    simp only [distinctFrom, List.map_cons, List.foldl_cons] at *
    rw [insertNew_map hf hseen hx, this]

/-- A renaming keeps the places of what it does not identify. -/
theorem idxOf_map {f : Var → Var} {S : Set Var} (hf : S.InjOn f) (hxs : ∀ y ∈ xs, y ∈ S)
    (hx : x ∈ S) : (xs.map f).idxOf (f x) = xs.idxOf x := by
  induction xs with
  | nil => rfl
  | cons y ys ih =>
    have hys := ih fun z hz => hxs z (by simp [hz])
    rw [List.map_cons]
    by_cases hyx : y = x
    · rw [hyx, List.idxOf_cons_self, List.idxOf_cons_self]
    · have hfyx : f y ≠ f x := by
        intro h
        exact hyx (hf (hxs y (by simp)) hx h)
      rw [List.idxOf_cons_ne _ hyx, List.idxOf_cons_ne _ hfyx, hys]

end Var

/-! ## Canonical forms -/

namespace Term

/-- The term with its variables replaced by canonical names, which are numbered in the order of first
occurrence. -/
def canonical (t : Term) : Term :=
  t.mapVars fun x => reifiedName ((Var.distinctFrom [] t.vars).idxOf x)

theorem Ground.canonical_eq {t : Term} (h : t.Ground) : t.canonical = t := h.mapVars_eq _

/-- The variables of a renamed term are the renamed variables. -/
theorem vars_rename (f : Var → Var) (t : Term) :
    (t.mapVars fun x => var (f x)).vars = t.vars.map f := by
  induction t with
  | nil | sym | var => rfl
  | pair a b iha ihb => rw [mapVars_pair, vars_pair, vars_pair, iha, ihb, List.map_append]

/-- Renaming the variables of a term does not change its canonical form. -/
theorem canonical_rename {f : Var → Var} {t : Term} (hf : Set.InjOn f {x | x ∈ t.vars}) :
    (t.mapVars fun x => var (f x)).canonical = t.canonical := by
  have hdistinct : Var.distinctFrom ([].map f) (t.vars.map f) = (Var.distinctFrom [] t.vars).map f :=
    Var.distinctFrom_map hf (fun _ h => nomatch h) fun _ h => h
  rw [canonical, canonical, mapVars_mapVars, vars_rename]
  refine mapVars_congr fun x hx => ?_
  rw [mapVars_var, ← List.map_nil (f := f), hdistinct]
  refine congrArg reifiedName (Var.idxOf_map hf (fun y hy => ?_) hx)
  exact (Var.mem_distinctFrom.1 hy).resolve_left (fun h => nomatch h)

/-- Two terms that are instances of each other have one canonical form: they differ in the names of
their variables alone. -/
theorem canonical_eq_of_instances {σ τ : Valuation} {t u : Term} (htu : t.mapVars σ = u)
    (hut : u.mapVars τ = t) : t.canonical = u.canonical := by
  have hback : ∀ x ∈ t.vars, (σ x).mapVars τ = var x := by
    rw [← htu, mapVars_mapVars] at hut
    exact fun x hx => eq_of_mapVars_eq (hut.trans (mapVars_var_self t).symm) hx
  -- a term whose instance is a variable is a variable, so `σ` renames
  let f : Var → Var := fun x => (σ x).var?.getD x
  have hf : ∀ x ∈ t.vars, σ x = var (f x) ∧ τ (f x) = var x := by
    intro x hx
    obtain ⟨y, hy, hyx⟩ := exists_var_of_mapVars_eq_var (hback x hx)
    have hfx : f x = y := by simp only [f, hy]; rfl
    exact ⟨hfx ▸ hy, hfx ▸ hyx⟩
  have hinj : Set.InjOn f {x | x ∈ t.vars} := by
    intro x hx y hy hxy
    have := (hf x hx).2
    rw [hxy, (hf y hy).2] at this
    exact (Term.var.inj this).symm
  rw [← htu, mapVars_congr fun x hx => (hf x hx).1, canonical_rename hinj]

end Term

/-! ## Naming the open variables -/

namespace Store

variable {s r : Store} {x : Var} {t : Term}

/-- The store in which the variables are bound to canonical names, one after the other. -/
def named (s : Store) (xs : List Var) : Store :=
  xs.foldl (fun r x => r.push x (reifiedName r.size)) s

theorem named_append (s : Store) (xs ys : List Var) : s.named (xs ++ ys) = (s.named xs).named ys :=
  List.foldl_append

theorem size_push (s : Store) (x : Var) (t : Term) : (s.push x t).size = s.size + 1 := rfl

/-- The names stand before the bindings that were there, the last one first, and are numbered from how
many these are. -/
theorem bindings_named (s : Store) (xs : List Var) :
    (s.named xs).bindings =
      (xs.mapIdx fun i x => (x, reifiedName (s.size + i))).reverse ++ s.bindings := by
  induction xs generalizing s with
  | nil => rfl
  | cons x xs ih =>
    have hnamed : s.named (x :: xs) = (s.push x (reifiedName s.size)).named xs := rfl
    have hbindings : (s.push x (reifiedName s.size)).bindings =
        (x, reifiedName s.size) :: s.bindings := rfl
    rw [hnamed, ih, hbindings, List.mapIdx_cons, List.reverse_cons, List.append_assoc]
    simp only [size_push, Nat.add_assoc, Nat.add_comm 1, Nat.add_zero, List.singleton_append]

/-- The other variables keep their bindings. -/
theorem lookup_named_of_not_mem {xs : List Var} (hx : x ∉ xs) :
    (s.named xs).lookup x = s.lookup x := by
  induction xs generalizing s with
  | nil => rfl
  | cons y ys ih =>
    obtain ⟨hxy, hys⟩ := not_or.1 (mt List.mem_cons.2 hx)
    have : s.named (y :: ys) = (s.push y (reifiedName s.size)).named ys := rfl
    rw [this, ih hys, lookup_push, if_neg hxy]

/-- Each of the variables has the name of its place. -/
theorem lookup_named_of_mem {xs : List Var} (hxs : xs.Nodup) (hx : x ∈ xs) :
    (s.named xs).lookup x = some (reifiedName (s.size + xs.idxOf x)) := by
  induction xs generalizing s with
  | nil => cases hx
  | cons y ys ih =>
    obtain ⟨hy, hys⟩ := List.nodup_cons.1 hxs
    have hnamed : s.named (y :: ys) = (s.push y (reifiedName s.size)).named ys := rfl
    rw [hnamed]
    by_cases hyx : y = x
    · rw [hyx] at hy ⊢
      rw [lookup_named_of_not_mem hy, lookup_push_self, List.idxOf_cons_self, Nat.add_zero]
    · have hx := (List.mem_cons.1 hx).resolve_left fun h => hyx h.symm
      rw [ih hys hx, List.idxOf_cons_ne _ hyx, size_push, Nat.succ_add]
      rfl

/-- Names have no variables, so no cycle comes with them. -/
theorem Acyclic.named (hs : s.Acyclic) {xs : List Var} (hxs : xs.Nodup) : (s.named xs).Acyclic := by
  refine acyclic_of_rank s.depth fun y z ⟨u, hu, hz⟩ => ?_
  by_cases hy : y ∈ xs
  · rw [lookup_named_of_mem hxs hy] at hu
    cases hu
    cases hz
  · rw [lookup_named_of_not_mem hy] at hu
    exact hs.depth_lt ⟨u, hu, hz⟩

theorem nameOpenWithin_pair (s : Store) (n : Nat) (a b : Term) :
    nameOpenWithin (n + 1) s (.pair a b) =
      nameOpenWithin (n + 1) s a >>= fun s => nameOpenWithin (n + 1) s b :=
  Term.foldVars_pair ..

/-- A budget above the depths of its variables, and one more for the name at the end, suffices to name
the open variables of a term, also when some of them are named already. -/
theorem Acyclic.nameOpenWithin_eq (hs : s.Acyclic) (t : Term) :
    ∀ seen n, seen.Nodup → (∀ y ∈ seen, s.lookup y = none) → (∀ x ∈ t.vars, s.depth x < n) → 0 < n →
      nameOpenWithin (n + 1) (s.named seen) t =
        .ok (s.named (Var.distinctFrom seen (t.mapVars s.solution).vars)) := by
  induction t using hs.termInduction with
  | nil | sym => exact fun _ _ _ _ _ _ => rfl
  | pair a b iha ihb =>
    intro seen n hnd hseen hd hn
    have ha := iha seen n hnd hseen (fun x hx => hd x (by simp [hx])) hn
    have hseen' : ∀ y ∈ Var.distinctFrom seen (a.mapVars s.solution).vars, s.lookup y = none :=
      fun y hy => (Var.mem_distinctFrom.1 hy).elim (hseen y) (hs.unbound_of_mem_vars a y)
    have hb := ihb _ n (Var.nodup_distinctFrom hnd) hseen' (fun x hx => hd x (by simp [hx])) hn
    rw [Term.mapVars_pair, Term.vars_pair, Var.distinctFrom_append, ← hb, nameOpenWithin_pair, ha]
    rfl
  | unbound x hx =>
    intro seen n hnd _ _ hn
    obtain ⟨n, rfl⟩ := Nat.exists_eq_succ_of_ne_zero hn.ne'
    have hvars : ((Term.var x).mapVars s.solution).vars = [x] := by
      rw [Term.mapVars_var, solution_of_unbound hx, Term.vars_var]
    have hdistinct : Var.distinctFrom seen [x] = Var.insertNew seen x := rfl
    rw [hvars, hdistinct]
    by_cases hmem : x ∈ seen
    · rw [Var.insertNew_of_mem hmem]
      simp only [nameOpenWithin, Term.foldVars, lookup_named_of_mem hnd hmem, reifiedName]
    · rw [Var.insertNew_of_not_mem hmem, named_append]
      simp only [nameOpenWithin, Term.foldVars, lookup_named_of_not_mem hmem, hx]
      rfl
  | bound x u hx ih =>
    intro seen n hnd hseen hd hn
    obtain ⟨n, rfl⟩ := Nat.exists_eq_succ_of_ne_zero hn.ne'
    obtain ⟨hd', hn'⟩ := hs.depth_lt_of_bound hx (hd x (by simp))
    have hmem : x ∉ seen := by
      intro h
      rw [hseen x h] at hx
      cases hx
    have hlookup : (s.named seen).lookup x = some u := (lookup_named_of_not_mem hmem).trans hx
    rw [Term.mapVars_var, hs.solution_of_bound hx, ← ih seen n hnd hseen hd' hn']
    simp only [nameOpenWithin, Term.foldVars, hlookup]

/-- The open variables of a term are named in the order in which they occur first in the term with all
bindings applied. -/
theorem Acyclic.nameOpen_eq (hs : s.Acyclic) (t : Term) :
    s.nameOpen t = .ok (s.named (Var.distinctFrom [] (t.mapVars s.solution).vars)) :=
  hs.nameOpenWithin_eq t [] _ List.nodup_nil (fun _ h => nomatch h)
    (fun x _ => s.depth_lt_pathBound x) (Nat.succ_pos _)

theorem load_le_named (s : Store) (xs : List Var) : s.load ≤ (s.named xs).load := by
  induction xs generalizing s with
  | nil => exact Nat.le_refl _
  | cons x xs ih => exact Nat.le_trans (Nat.le_add_left ..) (ih (s.push x (reifiedName s.size)))

/-- Open variables are named by walking from a term, and then in the components of the pair to which that
leads, in the second one with the names that the first one has got. -/
theorem Acyclic.nameOpen_eq_walk (hs : s.Acyclic) (t : Term) :
    s.nameOpen t = s.walk t >>= fun
      | .var x => .ok (s.push x (reifiedName s.size))
      | .pair a b => s.nameOpen a >>= fun r => r.nameOpen b
      | _ => .ok s := by
  obtain ⟨a, ha, hwalk⟩ := hs.walk_eq t
  rw [ha, hs.nameOpen_eq, ← hwalk.mapVars_eq hs.solution_satisfies]
  cases a with
  | nil | sym => rfl
  | var x =>
    rw [Term.mapVars_var, solution_of_unbound hwalk.unbound]
    rfl
  | pair a b =>
    show _ = s.nameOpen a >>= fun r => r.nameOpen b
    let xs := Var.distinctFrom [] (a.mapVars s.solution).vars
    have hunbound : ∀ x ∈ xs, s.lookup x = none := fun x hx =>
      hs.unbound_of_mem_vars a x ((Var.mem_distinctFrom.1 hx).resolve_left List.not_mem_nil)
    -- the second component is named on a larger budget, that of the store with the names
    have hdepth : ∀ x ∈ b.vars, s.depth x < (s.named xs).pathBound := fun x _ =>
      Nat.lt_of_lt_of_le (s.depth_lt_pathBound x) (Nat.succ_le_succ (s.load_le_named xs))
    have hb := hs.nameOpenWithin_eq b xs _ (Var.nodup_distinctFrom List.nodup_nil) hunbound hdepth
      (Nat.succ_pos _)
    rw [Term.mapVars_pair, Term.vars_pair, Var.distinctFrom_append, ← hb, hs.nameOpen_eq a]
    rfl

/-- Naming starts from any acyclic store. The variables that get a name are those that the term has with
all bindings applied, and they are open; their bindings to names stand before those that were there, in
the order in which they occur first, the last one newest, with numbers that go on from how many bindings
there were. No cycle comes with them. -/
theorem nameOpen_numbers (r : Store) (hr : r.Acyclic) (t : Term) :
    ∃ a xs q, r.walkStar t = .ok a ∧ Var.FirstOccurrences a.vars xs ∧
      (∀ x ∈ xs, r.lookup x = none) ∧ r.nameOpen t = .ok q ∧
      q.bindings = (xs.mapIdx fun i x => (x, reifiedName (r.size + i))).reverse ++ r.bindings ∧
      q.Acyclic := by
  have hfirst := Var.firstOccurrences_distinctFrom (t.mapVars r.solution).vars
  refine ⟨_, _, _, hr.walkStar_eq t, hfirst, fun x hx => ?_, hr.nameOpen_eq t, r.bindings_named _,
    hr.named (Var.nodup_distinctFrom List.nodup_nil)⟩
  exact hr.unbound_of_mem_vars t x ((hfirst.mem_iff x).1 hx)

/-- Where `w` is bound to `a` and `x` to `(,y . ,z)`, the list `(,z ,w . ,x)` goes on behind its second
item. Its open variables are `z`, which occurs twice, and `y`, and they get the numbers from two on. -/
theorem nameOpen_numbers_spine :
    let r := (empty.push ⟨"w"⟩ (.sym "a")).push ⟨"x"⟩ (.pair (.named "y") (.named "z"))
    let t := Term.listWithTail [.named "z", .named "w"] (.named "x")
    let q := (r.push ⟨"z"⟩ (reifiedName 2)).push ⟨"y"⟩ (reifiedName 3)
    r.Acyclic ∧ r.lookup ⟨"y"⟩ = none ∧ r.nameOpen t = .ok q ∧ q.Acyclic := by
  intro r t q
  have hr : r.Acyclic := (acyclic_empty.push rfl (by decide)).push rfl (by decide +kernel)
  have hq : r.nameOpen t = .ok q := by decide +kernel
  have hstar : r.walkStar t = .ok (.listWithTail [.named "z", .sym "a", .named "y"] (.named "z")) := by
    decide +kernel
  obtain ⟨a, xs, q', ha, hxs, hopen, hq', -, hacyclic⟩ := nameOpen_numbers r hr t
  rw [hstar] at ha
  rw [hq] at hq'
  cases ha
  cases hq'
  exact ⟨hr, hopen ⟨"y"⟩ ((hxs.mem_iff ⟨"y"⟩).2 (by decide)), hq, hacyclic⟩

/-- Without bindings a term stands for itself. -/
theorem mapVars_solution_empty (t : Term) : t.mapVars empty.solution = t :=
  Term.mapVars_eq_self fun x _ => solution_of_unbound (lookup_empty x)

/-- A term is shown with all bindings applied and in canonical form. -/
theorem Acyclic.reify_eq (hs : s.Acyclic) (t : Term) :
    s.reify t = .ok (t.mapVars s.solution).canonical := by
  let u := t.mapVars s.solution
  let xs := Var.distinctFrom [] u.vars
  have hxs : xs.Nodup := Var.nodup_distinctFrom List.nodup_nil
  have hnames : empty.nameOpen u = .ok (empty.named xs) := by
    rw [acyclic_empty.nameOpen_eq u, mapVars_solution_empty]
  have hnamed := acyclic_empty.named hxs
  have hcanonical : u.mapVars (empty.named xs).solution = u.canonical := by
    refine Term.mapVars_congr fun x hx => ?_
    have hlookup := lookup_named_of_mem (s := empty) hxs (Var.mem_distinctFrom.2 (.inr hx))
    rw [hnamed.solution_of_bound hlookup]
    exact congrArg reifiedName (Nat.zero_add _)
  simp only [reify, hs.walkStar_eq t]
  refine (congrArg (· >>= fun names => names.walkStar u) hnames).trans ?_
  exact (hnamed.walkStar_eq u).trans (congrArg _ hcanonical)

/-! ## What is shown depends on the valuations alone -/

/-- When the valuations that satisfy one store are, up to a renaming that fixes the variables of a
term, those that satisfy the other, then the term is shown in the same way in both. -/
theorem Acyclic.reify_eq_of_satisfies_iff (hs : s.Acyclic) (hr : r.Acyclic) (π : Equiv.Perm Var)
    (h : ∀ σ : Valuation, σ.Satisfies r ↔ Valuation.Satisfies (σ ∘ π) s)
    (ht : ∀ x ∈ t.vars, π x = x) : s.reify t = r.reify t := by
  have hsymm : ∀ x ∈ t.vars, π.symm x = x := by
    intro x hx
    exact (π.symm_apply_eq).2 (ht x hx).symm
  -- the solution of each store, renamed, is a valuation of the other one
  have hrs : Valuation.Satisfies (r.solution ∘ π) s := (h _).1 hr.solution_satisfies
  have hsr : Valuation.Satisfies (s.solution ∘ π.symm) r := by
    refine (h _).2 ?_
    have : (s.solution ∘ π.symm) ∘ π = s.solution := by
      funext x
      simp only [Function.comp_apply, Equiv.symm_apply_apply]
    rw [this]
    exact hs.solution_satisfies
  rw [hs.reify_eq, hr.reify_eq]
  refine congrArg _ (Term.canonical_eq_of_instances (σ := r.solution ∘ π)
    (τ := s.solution ∘ π.symm) ?_ ?_)
  · rw [hs.mapVars_solution hrs]
    exact Term.mapVars_congr fun x hx => congrArg r.solution (ht x hx)
  · rw [hr.mapVars_solution hsr]
    exact Term.mapVars_congr fun x hx => congrArg s.solution (hsymm x hx)

end Store

end Relational
