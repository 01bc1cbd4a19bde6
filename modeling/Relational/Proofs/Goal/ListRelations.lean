import Relational.Proofs.Goal.Ranges
import Relational.Proofs.LazyStream.Yielding

/-!
# Relations on lists

The relations that take a list apart are called in states that range over something, and each of them
restricts it by what the relation means (`exists_conso`, `exists_caro`, `exists_cdro`, `exists_nullo`);
the variable that one of them allocates is not looked at any more. A call is suspended, so what comes
of it is there after one forcing (`Goal.Unwinds`).

The recursive relations come to an answer or none and then to themselves, with other arguments
(`Definition.Turns`). What their answers show is therefore found by induction, one turn after the other
(`Shows`, `Turns.shows`).
-/

namespace Relational

open LazyStream

variable {α β : Type} {p : Program} {n c c' : Nat} {ρ : Scope} {g h : Goal} {s : State}
  {st gs hs : Answers} {view : Valuation → α} {R : α → Prop}

/-! ## Forcing what goals give -/

/-- The goal gives a suspended stream, and it is forced to the stream `st`. -/
def Goal.Unwinds (p : Program) (n : Nat) (g : Goal) (ρ : Scope) (s : State) (st : Answers) : Prop :=
  ∃ first, g.Gives p n ρ s first ∧ ForcesTo (Closure.run p (n + 1)) first 1 st

/-- What an application of the relation waits for. -/
def Definition.suspended (d : Definition) (args : List Term) (s : State) : Answers :=
  .delay ⟨d.body, .ofArgs d.params args⟩ s

/-- What the relation goes on with, in the state that there may be. -/
def Definition.resumed (d : Definition) (args : List Term) (o : Option State) : Answers :=
  o.elim empty fun b => (d.suspended args b).append empty

namespace Goal

/-- A call gives its suspension. -/
theorem gives_suspended {r : RelName} {args : List Term} (hs : s.store.Acyclic) :
    (call r args).Gives p n ρ s ((p.definition r).suspended (args.map ρ.instantiate) s) :=
  (p.definition r).exists_apply hs (args.map ρ.instantiate)

/-- A call is forced to what the body gives. -/
theorem unwinds_call {r : RelName} {args : List Term} (hs : s.store.Acyclic)
    (h : (p.definition r).body.Gives p n
      (.ofArgs (p.definition r).params (args.map ρ.instantiate)) s st) :
    (call r args).Unwinds p n ρ s st := by
  obtain ⟨log, hlog⟩ := h
  exact ⟨_, gives_suspended hs, forcesTo_one_iff.2 ⟨rfl, log, hlog⟩⟩

/-- A conjunction is forced as its first goal is. -/
theorem Unwinds.conj (hg : g.Unwinds p n ρ s gs)
    (hmaps : Maps (Closure.run p (n + 1)) ⟨h, ρ⟩ gs st) : (conj g h).Unwinds p n ρ s st := by
  obtain ⟨first, hgives, hforces⟩ := hg
  have hsus := (forcesTo_one_iff.1 hforces).1
  exact ⟨_, gives_conj.2 ⟨first, hgives, (maps_of_suspended hsus).2 rfl⟩, hforces.bind hmaps⟩

/-- A conjunction that ends in a call goes on with the relation. -/
theorem Unwinds.conj_call {o : Option State} (hg : g.Unwinds p n ρ s (ofList o.toList))
    (ho : ∀ b ∈ o, b.store.Acyclic) (r : RelName) (args : List Term) :
    (Goal.conj g (call r args)).Unwinds p n ρ s
      ((p.definition r).resumed (args.map ρ.instantiate) o) :=
  hg.conj (maps_option fun b hb => gives_suspended (ho b hb))

/-- A goal about a new variable is forced as it is once the variable has been allocated. -/
theorem Unwinds.fresh {x y : Var} {b : State} (hfresh : s.fresh = .ok (y, b))
    (hg : g.Unwinds p n ((x, .var y) :: ρ) b st) : (fresh x g).Unwinds p n ρ s st := by
  obtain ⟨first, hgives, hforces⟩ := hg
  exact ⟨first, gives_fresh_iff.2 ⟨y, b, hfresh, hgives⟩, hforces⟩

/-- Both goals of a disjunction are forced, one after the other. -/
theorem Unwinds.exists_disj (hg : g.Unwinds p n ρ s gs) (hh : h.Unwinds p n ρ s hs) :
    ∃ first, (disj g h).Gives p n ρ s first ∧
      ForcesTo (Closure.run p (n + 1)) first 2 (gs.append hs) := by
  obtain ⟨gfirst, hggives, hgforces⟩ := hg
  obtain ⟨hfirst, hhgives, hhforces⟩ := hh
  exact ⟨_, gives_disj.2 ⟨_, _, hggives, hhgives, rfl⟩, hgforces.append hhforces⟩

/-- A conjunction goes on as its second goal does in the state that the first one comes to, if there is
one; `S` says what is known of how it goes on. -/
theorem Unwinds.exists_conj {o : Option State} {view' : Valuation → β} {R' : β → Prop}
    {S : Option State → Answers → Prop} (hg : g.Unwinds p n ρ s (ofList o.toList))
    (ho : Outcome c view R o) (hnone : S none empty)
    (hh : ∀ b : State, b.Ranges c view R → ∃ o' part,
      h.Gives p n ρ b part ∧ S o' (part.append empty) ∧ Outcome c' view' R' o')
    (hR' : ∀ b, R' b → ∃ a, R a) :
    ∃ o' next, (Goal.conj g h).Unwinds p n ρ s next ∧ S o' next ∧ Outcome c' view' R' o' := by
  cases ho with
  | void hno =>
    refine ⟨none, empty, hg.conj (maps_empty.2 rfl), hnone, .void fun b hb => ?_⟩
    obtain ⟨a, ha⟩ := hR' b hb
    exact hno a ha
  | @reached b hb =>
    obtain ⟨o', part, ⟨log, hgives⟩, hS, ho'⟩ := hh b hb
    have hmaps := maps_cons.2 ⟨part, log, empty, hgives, maps_empty.2 rfl, rfl⟩
    exact ⟨o', part.append empty, hg.conj hmaps, hS, ho'⟩

end Goal

/-! ## Taking lists apart -/

section

variable {a d l : Term} {A D L : α → Term}

/-- The third argument is the pair of the first two. -/
theorem State.Ranges.exists_conso (hs : s.Ranges c view R) (ha : (ρ.instantiate a).SeenAs view A)
    (hd : (ρ.instantiate d).SeenAs view D) (hl : (ρ.instantiate l).SeenAs view L) :
    ∃ o : Option State, (Goal.call .conso [a, d, l]).Unwinds p n ρ s (ofList o.toList) ∧
      Outcome c view (fun v => R v ∧ .pair (A v) (D v) = L v) o := by
  let ρ' := Scope.ofArgs Definition.conso.params ([a, d, l].map ρ.instantiate)
  have ha' : (ρ'.instantiate (.named "a")).SeenAs view A := ha
  have hd' : (ρ'.instantiate (.named "d")).SeenAs view D := hd
  have hl' : (ρ'.instantiate (.named "p")).SeenAs view L := hl
  obtain ⟨o, hgives, ho⟩ := hs.exists_gives_eq (Term.seenAs_pair ha' hd') hl'
  exact ⟨o, Goal.unwinds_call hs.acyclic hgives, ho⟩

/-- The second argument is the first component of the first one. -/
theorem State.Ranges.exists_caro (hs : s.Ranges c view R) (hc : c < counterMax)
    (hl : (ρ.instantiate l).SeenAs view L) (ha : (ρ.instantiate a).SeenAs view A) :
    ∃ o : Option State, (Goal.call .caro [l, a]).Unwinds p n ρ s (ofList o.toList) ∧
      Outcome (c + 1) view (fun v => R v ∧ ∃ d, .pair (A v) d = L v) o := by
  let ρ' : Scope := (⟨"d"⟩, .var (.fresh c)) ::
    Scope.ofArgs Definition.caro.params ([l, a].map ρ.instantiate)
  let view' : Valuation → Term × α := fun σ => (σ (.fresh c), view σ)
  have ha' : (ρ'.instantiate (.named "a")).SeenAs view' fun v => A v.2 := fun σ => ha σ
  have hd' : (ρ'.instantiate (.named "d")).SeenAs view' Prod.fst := fun _ => rfl
  have hl' : (ρ'.instantiate (.named "p")).SeenAs view' fun v => L v.2 := fun σ => hl σ
  obtain ⟨o, hgives, ho⟩ := hs.exists_gives_fresh_eq hc (Term.seenAs_pair ha' hd') hl'
  exact ⟨o, Goal.unwinds_call hs.acyclic hgives, ho⟩

/-- The second argument is the second component of the first one. -/
theorem State.Ranges.exists_cdro (hs : s.Ranges c view R) (hc : c < counterMax)
    (hl : (ρ.instantiate l).SeenAs view L) (hd : (ρ.instantiate d).SeenAs view D) :
    ∃ o : Option State, (Goal.call .cdro [l, d]).Unwinds p n ρ s (ofList o.toList) ∧
      Outcome (c + 1) view (fun v => R v ∧ ∃ a, .pair a (D v) = L v) o := by
  let ρ' : Scope := (⟨"a"⟩, .var (.fresh c)) ::
    Scope.ofArgs Definition.cdro.params ([l, d].map ρ.instantiate)
  let view' : Valuation → Term × α := fun σ => (σ (.fresh c), view σ)
  have ha' : (ρ'.instantiate (.named "a")).SeenAs view' Prod.fst := fun _ => rfl
  have hd' : (ρ'.instantiate (.named "d")).SeenAs view' fun v => D v.2 := fun σ => hd σ
  have hl' : (ρ'.instantiate (.named "p")).SeenAs view' fun v => L v.2 := fun σ => hl σ
  obtain ⟨o, hgives, ho⟩ := hs.exists_gives_fresh_eq hc (Term.seenAs_pair ha' hd') hl'
  exact ⟨o, Goal.unwinds_call hs.acyclic hgives, ho⟩

/-- The argument is the empty list. -/
theorem State.Ranges.exists_nullo (hs : s.Ranges c view R)
    (hl : (ρ.instantiate l).SeenAs view L) :
    ∃ o : Option State, (Goal.call .nullo [l]).Unwinds p n ρ s (ofList o.toList) ∧
      Outcome c view (fun v => R v ∧ .nil = L v) o := by
  let ρ' := Scope.ofArgs Definition.nullo.params ([l].map ρ.instantiate)
  have hnil : (ρ'.instantiate .nil).SeenAs view fun _ => .nil := fun _ => rfl
  have hl' : (ρ'.instantiate (.named "l")).SeenAs view L := hl
  obtain ⟨o, hgives, ho⟩ := hs.exists_gives_eq hnil hl'
  exact ⟨o, Goal.unwinds_call hs.acyclic hgives, ho⟩

end

/-! ## Turns of the recursive relations -/

/-- The relation comes to the state `o` as an answer, if there is one, and then to itself with the
arguments `args'` in the state `o'`, if there is one. -/
def Definition.Turns (p : Program) (n : Nat) (d : Definition) (args : List Term) (s : State)
    (o : Option State) (args' : List Term) (o' : Option State) : Prop :=
  ∃ j k next, ForcesTo (Closure.run p (n + 1)) (d.suspended args s) j ((ofList o.toList).append next) ∧
    ForcesTo (Closure.run p (n + 1)) next k (d.resumed args' o')

/-- Up to the limit, the states of the stream show the term as these terms, one after the other. -/
def Shows (p : Program) (n : Nat) (limit : Limit) (t : Term) (st : Answers) (terms : List Term) : Prop :=
  ∃ items, Yields (Closure.run p (n + 1)) limit st items ∧
    List.Forall₂ (fun b u => b.reify t = .ok u) items terms

section

variable {d : Definition} {args args' : List Term} {o o' : Option State} {limit : Limit} {t : Term}
  {terms terms' : List Term}

theorem shows_of_reached (h : limit.isReached 0 = true) : Shows p n limit t st [] :=
  ⟨[], yields_of_reached h, .nil⟩

theorem shows_resumed_none : Shows p n limit t (d.resumed args none) [] :=
  ⟨[], yields_empty, .nil⟩

theorem shows_resumed_some {b : State} (h : Shows p n limit t (d.suspended args b) terms) :
    Shows p n limit t (d.resumed args (some b)) terms := by
  obtain ⟨items, hitems, hshown⟩ := h
  exact ⟨items, hitems.append_empty rfl, hshown⟩

/-- After a turn the answer is shown, and all that is shown from where the relation goes on. -/
theorem Definition.Turns.shows (h : d.Turns p n args s o args' o') (hlimit : limit.isReached 0 = false)
    (hfirst : List.Forall₂ (fun b u => b.reify t = .ok u) o.toList terms)
    (hrest : Shows p n (limit.less terms.length) t (d.resumed args' o') terms') :
    Shows p n limit t (d.suspended args s) (terms ++ terms') := by
  obtain ⟨j, k, next, hforces, hnext⟩ := h
  obtain ⟨items, hitems, hshown⟩ := hrest
  rw [← hfirst.length_eq] at hitems
  have hyields := (Yields.behind hlimit (hitems.of_forcesTo hnext)).of_forcesTo hforces
  exact ⟨_, hyields, List.rel_append hfirst hshown⟩

end

end Relational
