import Relational.Proofs.Goal.Cost

/-!
# The order of branches

Putting the branches of disjunctions in another order, or grouping them in another way, in a goal and
in the bodies of relations alike (`Goal.Rearranged`, `Program.Rearranged`), changes the order of the
answers alone: the tree to be searched has the same answers and the same calls
(`Goal.Explores.rearrange`). So a run for all answers comes to its end or does not, whatever the order
is, and reports that it has forced as often (`run_all_forced`).
-/

namespace Relational

open LazyStream

namespace Goal

/-- The branches of disjunctions have been put in another order, or grouped in another way. -/
inductive Rearranged : Goal → Goal → Prop
  | refl (g : Goal) : Rearranged g g
  | trans {g h k : Goal} (hgh : Rearranged g h) (hhk : Rearranged h k) : Rearranged g k
  | comm (g h : Goal) : Rearranged (.disj g h) (.disj h g)
  | assoc (g h k : Goal) : Rearranged (.disj (.disj g h) k) (.disj g (.disj h k))
  | disj {g g' h h' : Goal} (hg : Rearranged g g') (hh : Rearranged h h') :
    Rearranged (.disj g h) (.disj g' h')
  | conj {g g' h h' : Goal} (hg : Rearranged g g') (hh : Rearranged h h') :
    Rearranged (.conj g h) (.conj g' h')
  | fresh {x : Var} {g g' : Goal} (hg : Rearranged g g') : Rearranged (.fresh x g) (.fresh x g')

namespace Rearranged

variable {g g' : Goal}

theorem assoc_symm (g h k : Goal) : (Goal.disj g (.disj h k)).Rearranged (.disj (.disj g h) k) :=
  -- each branch in turn is brought behind the others
  have hfirst := (comm g (.disj h k)).trans (assoc h k g)
  have hsecond := (comm h (.disj k g)).trans (assoc k g h)
  (hfirst.trans hsecond).trans (comm k (.disj g h))

theorem symm (h : g.Rearranged g') : g'.Rearranged g := by
  induction h with
  | refl g => exact .refl g
  | trans _ _ ihgh ihhk => exact ihhk.trans ihgh
  | comm g h => exact .comm h g
  | assoc g h k => exact .assoc_symm g h k
  | disj _ _ ihg ihh => exact ihg.disj ihh
  | conj _ _ ihg ihh => exact ihg.conj ihh
  | fresh _ ih => exact ih.fresh

theorem pure (h : g.Rearranged g') (hg : g.Pure) : g'.Pure := by
  induction h with
  | refl => exact hg
  | trans _ _ ihgh ihhk => exact ihhk (ihgh hg)
  | comm => exact ⟨hg.2, hg.1⟩
  | assoc => exact ⟨hg.1.1, hg.1.2, hg.2⟩
  | disj _ _ ihg ihh | conj _ _ ihg ihh => exact ⟨ihg hg.1, ihh hg.2⟩
  | fresh _ ih => exact ih hg

end Rearranged

/-- The goals of which one has to hold may come in any order. -/
theorem rearranged_disjAll {goals goals' : List Goal} (h : goals.Perm goals') :
    (disjAll goals).Rearranged (disjAll goals') := by
  induction h with
  | nil => exact .refl _
  | @cons g goals goals' h ih =>
    match goals, goals', h with
    | [], [], _ => exact .refl _
    | _ :: _, _ :: _, _ => exact .disj (.refl g) ih
    | [], _ :: _, h => cases h.nil_eq
    | _ :: _, [], h => cases h.eq_nil
  | swap g h goals =>
    cases goals with
    | nil => exact .comm h g
    | cons k goals =>
      have hboth : (Goal.disj (.disj h g) _).Rearranged (.disj (.disj g h) (disjAll (k :: goals))) :=
        .disj (.comm h g) (.refl _)
      exact ((Rearranged.assoc_symm h g _).trans hboth).trans (.assoc g h _)
  | trans _ _ ih ih' => exact ih.trans ih'

end Goal

/-- The branches of disjunctions have been rearranged in the body of a relation. -/
structure Definition.Rearranged (d d' : Definition) : Prop where
  params : d.params = d'.params
  body : d.body.Rearranged d'.body

/-- The branches of disjunctions have been rearranged in the bodies of the relations. -/
def Program.Rearranged (p p' : Program) : Prop :=
  List.Forall₂ (fun d d' => d.1 = d'.1 ∧ d.2.Rearranged d'.2) p p'

namespace Program.Rearranged

variable {p p' : Program}

theorem refl (p : Program) : p.Rearranged p :=
  List.forall₂_same.2 fun d _ => ⟨rfl, rfl, .refl d.2.body⟩

theorem symm (h : p.Rearranged p') : p'.Rearranged p :=
  h.flip.imp fun _ _ ⟨hname, hd⟩ => ⟨hname.symm, hd.params.symm, hd.body.symm⟩

theorem pure (h : p.Rearranged p') (hp : p.Pure) : p'.Pure := by
  induction h with
  | nil => exact hp
  | cons hd _ ih =>
    have ⟨hfirst, hrest⟩ := List.forall_mem_cons.1 hp
    exact List.forall_mem_cons.2 ⟨hd.2.body.pure hfirst, ih hrest⟩

/-- What a relation means has been rearranged. -/
theorem definition (h : p.Rearranged p') (r : RelName) :
    (p.definition r).Rearranged (p'.definition r) := by
  cases r with
  | defined name =>
    simp only [Program.definition]
    induction h with
    | nil => exact ⟨rfl, .refl _⟩
    | @cons d d' p p' hd _ ih =>
      obtain ⟨name', d⟩ := d
      obtain ⟨_, d'⟩ := d'
      obtain ⟨rfl, hd⟩ := hd
      rw [List.lookup_cons, List.lookup_cons]
      cases name == name' with
      | true => exact hd
      | false => exact ih
  | _ => exact ⟨rfl, .refl _⟩

end Program.Rearranged

namespace Goal

variable {p p' : Program} {g g' h : Goal} {ρ : Scope} {s : State}
  {answers answers' : List State} {n : Nat}

/-! ## The tree -/

/-- The answers to both goals of a conjunction may come in any order. -/
theorem Explores.exists_conj {out : State → List State} {cost : State → Nat}
    (hg : g.Explores p ρ s answers' n) (hperm : answers'.Perm answers)
    (hh : ∀ a ∈ answers, ∃ out', out'.Perm (out a) ∧ h.Explores p ρ a out' (cost a)) :
    ∃ found, found.Perm (answers.flatMap out) ∧
      (Goal.conj g h).Explores p ρ s found (n + (answers.map cost).sum) := by
  choose! out' hout hexp using hh
  refine ⟨answers'.flatMap out',
    (hperm.flatMap_right out').trans (List.Perm.flatMap_left answers hout), ?_⟩
  rw [← (hperm.map cost).sum_eq]
  exact hg.conj fun a ha => hexp a (hperm.mem_iff.1 ha)

/-- Rearranging a goal keeps its tree. -/
theorem Rearranged.explores (h : g.Rearranged g') (hexp : g.Explores p ρ s answers n) :
    ∃ answers', answers'.Perm answers ∧ g'.Explores p ρ s answers' n := by
  induction h generalizing ρ s answers n with
  | refl => exact ⟨answers, .refl _, hexp⟩
  | trans _ _ ihgh ihhk =>
    obtain ⟨middle, hmiddle, hexp⟩ := ihgh hexp
    obtain ⟨answers', hperm, hexp⟩ := ihhk hexp
    exact ⟨answers', hperm.trans hmiddle, hexp⟩
  | comm =>
    cases hexp with
    | disj hg hh => exact ⟨_, List.perm_append_comm, by rw [Nat.add_comm]; exact hh.disj hg⟩
  | assoc =>
    cases hexp with
    | disj hgh hk =>
      cases hgh with
      | disj hg hh =>
        rw [List.append_assoc, Nat.add_assoc]
        exact ⟨_, .refl _, hg.disj (hh.disj hk)⟩
  | disj _ _ ihg ihh =>
    cases hexp with
    | disj hg hh =>
      obtain ⟨_, hperm, hg⟩ := ihg hg
      obtain ⟨_, hperm', hh⟩ := ihh hh
      exact ⟨_, hperm.append hperm', hg.disj hh⟩
  | conj _ _ ihg ihh =>
    cases hexp with
    | conj hg hh =>
      obtain ⟨_, hperm, hg⟩ := ihg hg
      exact hg.exists_conj hperm fun a ha => ihh (hh a ha)
  | fresh _ ih =>
    cases hexp with
    | fresh hf hg =>
      obtain ⟨_, hperm, hg⟩ := ih hg
      exact ⟨_, hperm, hg.fresh hf⟩

/-- Rearranging a goal and the relations that it calls keeps its tree. -/
theorem Explores.rearrange (hexp : g.Explores p ρ s answers n) (hp : p.Rearranged p')
    (hg : g.Rearranged g') : ∃ answers', answers'.Perm answers ∧ g'.Explores p' ρ s answers' n := by
  suffices hsame : ∃ middle, middle.Perm answers ∧ g.Explores p' ρ s middle n by
    obtain ⟨middle, hmiddle, hexp⟩ := hsame
    obtain ⟨answers', hperm, hexp⟩ := hg.explores hexp
    exact ⟨answers', hperm.trans hmiddle, hexp⟩
  clear hg
  induction hexp with
  | succeed => exact ⟨_, .refl _, .succeed⟩
  | fail => exact ⟨_, .refl _, .fail⟩
  | solved h => exact ⟨_, .refl _, .solved h⟩
  | unsolvable h => exact ⟨_, .refl _, .unsolvable h⟩
  | disj _ _ ihg ihh =>
    obtain ⟨_, hperm, hg⟩ := ihg
    obtain ⟨_, hperm', hh⟩ := ihh
    exact ⟨_, hperm.append hperm', hg.disj hh⟩
  | conj _ _ ihg ihh =>
    obtain ⟨_, hperm, hg⟩ := ihg
    exact hg.exists_conj hperm ihh
  | fresh hf _ ih =>
    obtain ⟨_, hperm, hg⟩ := ih
    exact ⟨_, hperm, hg.fresh hf⟩
  | @call r args ρ s answers n _ ih =>
    obtain ⟨middle, hmiddle, hbody⟩ := ih
    have hd := hp.definition r
    obtain ⟨answers', hperm, hbody⟩ := hd.body.explores hbody
    rw [hd.params] at hbody
    exact ⟨answers', hperm.trans hmiddle, .call hbody⟩

/-! ## Runs -/

/-- A run for all answers comes to its end, and reports that it has forced so often. -/
def Exhausts (p : Program) (g : Goal) (n : Nat) : Prop :=
  ∃ rounds states before,
    g.run p rounds .all = .value states (before ++ [.finished .all states.length n])

/-- What is pulled without a limit are the answers of a tree, with as many forcings as calls. -/
theorem Pulled.exists_explores (hp : p.Pure) (hg : g.Pure) {rounds : Nat} {states : List State}
    (h : g.Pulled p rounds .all states n) :
    ∃ answers, states.Perm answers ∧ g.Explores p [] .empty answers n := by
  obtain ⟨st, log, hst, hpulled⟩ := h
  cases rounds with
  | zero => cases hst
  | succ m =>
    have hgives : g.Gives p m [] .empty st := ⟨log, hst⟩
    have hends := pulled_all_iff.1 hpulled
    have hempty : State.empty.store.Acyclic := Store.acyclic_empty
    obtain ⟨answers, k, hexp⟩ := hgives.exists_explores hp hg hempty hends
    obtain ⟨rfl, hperm⟩ := hexp.eq_of_ends hempty hgives hends
    exact ⟨answers, hperm, hexp⟩

/-- The answers of a finite tree are pulled without a limit. -/
theorem Explores.exists_pulled (h : g.Explores p [] .empty answers n) :
    ∃ states, states.Perm answers ∧ g.Pulled p 1 .all states n := by
  obtain ⟨st, states, ⟨log, hst⟩, hends, hperm⟩ := h.exists_ends Store.acyclic_empty 0
  exact ⟨states, hperm, st, log, hst, pulled_all_iff.2 hends⟩

/-- A run that comes to its end has searched a finite tree, and reports the number of its calls. -/
theorem exists_explores_of_run (hp : p.Pure) (hg : g.Pure) {rounds : Nat} {states : List State}
    {events : List Event} (h : g.run p rounds .all = .value states events) :
    ∃ answers n before, g.Explores p [] .empty answers n ∧
      events = before ++ [.finished .all states.length n] := by
  obtain ⟨n, before, hpulled, hevents⟩ := pulled_of_run h
  obtain ⟨answers, -, hexp⟩ := hpulled.exists_explores hp hg
  exact ⟨answers, n, before, hexp, hevents⟩

/-- A finite tree is searched to its end by every run that has the budget. -/
theorem Explores.exists_run (h : g.Explores p [] .empty answers n) :
    ∃ N, ∀ rounds ≥ N, ∃ states before, states.Perm answers ∧
      g.run p rounds .all = .value states (before ++ [.finished .all states.length n]) := by
  obtain ⟨states, hperm, hpulled⟩ := h.exists_pulled
  obtain ⟨N, hN⟩ := hpulled.exists_run
  refine ⟨N, fun rounds hrounds => ?_⟩
  obtain ⟨before, hrun⟩ := hN rounds hrounds
  exact ⟨states, before, hperm, hrun⟩

/-- The forcings that a run reports are the calls in the tree. -/
theorem exhausts_iff (hp : p.Pure) (hg : g.Pure) :
    g.Exhausts p n ↔ ∃ answers, g.Explores p [] .empty answers n := by
  constructor
  · rintro ⟨rounds, states, before, hrun⟩
    obtain ⟨answers, k, before', hexp, hevents⟩ := exists_explores_of_run hp hg hrun
    obtain rfl : n = k := by simpa using List.append_inj_right' hevents rfl
    exact ⟨answers, hexp⟩
  · rintro ⟨answers, hexp⟩
    obtain ⟨N, hN⟩ := hexp.exists_run
    obtain ⟨states, before, -, hrun⟩ := hN N (Nat.le_refl N)
    exact ⟨N, states, before, hrun⟩

/-- Rearranging branches keeps what a run reports. -/
theorem Exhausts.rearrange (h : g.Exhausts p n) (hp : p.Pure) (hg : g.Pure)
    (hp' : p.Rearranged p') (hg' : g.Rearranged g') : g'.Exhausts p' n := by
  obtain ⟨answers, hexp⟩ := (exhausts_iff hp hg).1 h
  obtain ⟨answers', -, hexp⟩ := hexp.rearrange hp' hg'
  exact (exhausts_iff (hp'.pure hp) (hg'.pure hg)).2 ⟨answers', hexp⟩

/-- A run of a pure goal ends in no fault but that it goes on for ever, unless the counter
overflows. -/
theorem eq_unending (hp : p.Pure) (hg : g.Pure) {rounds : Nat} {limit : Limit} {e : Fault}
    (hoverflow : ¬ g.Overflows p rounds .empty) (h : g.run p rounds limit = .fault e) :
    e = .unending := by
  cases rounds with
  | zero =>
    cases h
    rfl
  | succ m =>
    obtain ⟨st, log, hst, hfaultless⟩ := exists_faultless hp hg Store.acyclic_empty hoverflow
    rw [run, hst, Logged.value_bind] at h
    cases hcollect : st.collect (Closure.run p (m + 1)) (m + 1) limit with
    | value found events =>
      rw [hcollect] at h
      cases h
    | fault e' =>
      rw [hcollect] at h
      cases h
      exact hfaultless.eq_unending hcollect

end Goal

/-! ## The main statement -/

variable {p : Program} {g : Goal}

/-- A run of a pure goal for all answers comes to its end if and only if the tree of the goal is
finite. Then it gives the answers of the tree, with every budget that is large enough, and reports
that it has forced as often as there are calls in the tree; and otherwise it goes on for ever, unless
the counter overflows. The branches of all disjunctions, in the goal and in the relations, may be put
in another order or grouped in another way: whether a run ends, and what it reports that it has
forced, remains the same. -/
theorem run_all_forced (hp : p.Pure) (hg : g.Pure) :
    ((∃ rounds states events, g.run p rounds .all = .value states events) ↔
      ∃ answers n, g.Explores p [] .empty answers n) ∧
    (∀ answers n, g.Explores p [] .empty answers n → ∃ N, ∀ rounds ≥ N, ∃ states before,
      states.Perm answers ∧
        g.run p rounds .all = .value states (before ++ [.finished .all states.length n])) ∧
    ((¬ ∃ answers n, g.Explores p [] .empty answers n) → ∀ rounds, ¬ g.Overflows p rounds .empty →
      g.run p rounds .all = .fault .unending) ∧
    ∀ p' g', p.Rearranged p' → g.Rearranged g' → ∀ n, g'.Exhausts p' n ↔ g.Exhausts p n := by
  refine ⟨⟨?_, ?_⟩, fun answers n hexp => hexp.exists_run, ?_, fun p' g' hp' hg' n => ?_⟩
  · rintro ⟨rounds, states, events, hrun⟩
    obtain ⟨answers, n, -, hexp, -⟩ := Goal.exists_explores_of_run hp hg hrun
    exact ⟨answers, n, hexp⟩
  · rintro ⟨answers, n, hexp⟩
    obtain ⟨N, hN⟩ := hexp.exists_run
    obtain ⟨states, before, -, hrun⟩ := hN N (Nat.le_refl N)
    exact ⟨N, states, _, hrun⟩
  · intro hinfinite rounds hoverflow
    cases hrun : g.run p rounds .all with
    | value states events =>
      obtain ⟨answers, n, -, hexp, -⟩ := Goal.exists_explores_of_run hp hg hrun
      exact absurd ⟨answers, n, hexp⟩ hinfinite
    | fault e => rw [Goal.eq_unending hp hg hoverflow hrun]
  · constructor
    · exact fun h => h.rearrange (hp'.pure hp) (hg'.pure hg) hp'.symm hg'.symm
    · exact fun h => h.rearrange hp hg hp' hg'

/-- The last item of a list of two is found with three calls of `last`, and as many of `cdro`, whether
`last` looks for the end of the list first or goes on first, and wherever the goal stands beside the
others. That `nevero` stands behind a goal without answers does no harm. -/
theorem run_all_forced_last :
    let found : Goal := .eq (.named "l") (.list [.named "x"])
    let goOn : Goal := .fresh ⟨"d"⟩ (.conj (.call .cdro [.named "l", .named "d"])
      (.call (.defined "last") [.named "x", .named "d"]))
    let p : Program := [("last", .plain ["x", "l"] (.disj found goOn))]
    let p' : Program := [("last", .plain ["x", "l"] (.disj goOn found))]
    let last : Goal := .call (.defined "last") [.named "q", .list [.sym "a", .sym "b"]]
    let other : Goal := .eq (.named "q") (.sym "c")
    let none : Goal := .conj .fail (.call .nevero [])
    let s : State := ⟨Store.empty.push ⟨"q"⟩ (.sym "c"), 0⟩
    let b : State := ⟨((Store.empty.push (.fresh 1) (.sym "a")).push (.fresh 0)
      (.list [.sym "b"])).push ⟨"q"⟩ (.sym "b"), 2⟩
    p.Pure ∧ (Goal.disjAll [last, other, none]).Pure ∧ p.Rearranged p' ∧
      (Goal.disjAll [last, other, none]).Rearranged (.disj (.disj none last) other) ∧
      (Goal.disjAll [last, other, none]).run p 20 .all = .value [s, b] [.finished .all 2 6] ∧
      (Goal.disj (.disj none last) other).Exhausts p' 6 := by
  intro found goOn p p' last other none s b
  have hp : p.Pure := by
    intro d hd
    obtain rfl := List.mem_singleton.1 hd
    exact ⟨trivial, trivial, trivial⟩
  have hg : (Goal.disjAll [last, other, none]).Pure := ⟨trivial, trivial, trivial, trivial⟩
  have hp' : p.Rearranged p' := .cons ⟨rfl, rfl, .comm found goOn⟩ .nil
  have hg' : (Goal.disjAll [last, other, none]).Rearranged (.disj (.disj none last) other) := by
    have hperm : [last, other, none].Perm [none, last, other] := by decide +kernel
    exact (Goal.rearranged_disjAll hperm).trans (.assoc_symm none last other)
  have hrun : (Goal.disjAll [last, other, none]).run p 20 .all =
      .value [s, b] [.finished .all 2 6] := by decide +kernel
  have hsame := (run_all_forced hp hg).2.2.2 p' _ hp' hg' 6
  exact ⟨hp, hg, hp', hg', hrun, hsame.2 ⟨20, [s, b], [], hrun⟩⟩

end Relational
