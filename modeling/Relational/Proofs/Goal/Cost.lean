import Relational.Proofs.Goal.Positions
import Relational.Proofs.Goal.Runs
import Relational.Proofs.LazyStream.Exhaustion

/-!
# The work of a search

The tree that a pure goal has to be searched through says which states the goal has for answers and
how many calls there are to be made, with no stream in sight: the branches of a disjunction are
searched one after the other, and the second goal of a conjunction once for every answer of the first
one (`Goal.Explores`). The search takes the branches in turns instead, and suspends and resumes them
over and over again, but does no more and no less: its streams come to their end if the tree is
finite, after as many forcings as there are calls (`Goal.Explores.exists_ends`), and only then
(`Goal.Gives.exists_explores`).
-/

namespace Relational

open LazyStream

/-- The tree of the goal from a state is finite, with these answers, and with so many calls. -/
inductive Goal.Explores (p : Program) : Goal → Scope → State → List State → Nat → Prop
  | succeed {ρ : Scope} {s : State} : Explores p .succeed ρ s [s] 0
  | fail {ρ : Scope} {s : State} : Explores p .fail ρ s [] 0
  | solved {u v : Term} {ρ : Scope} {s : State} {r : Store}
    (h : s.store.unify (ρ.instantiate u) (ρ.instantiate v) = .ok (some r)) :
    Explores p (.eq u v) ρ s [{ s with store := r }] 0
  | unsolvable {u v : Term} {ρ : Scope} {s : State}
    (h : s.store.unify (ρ.instantiate u) (ρ.instantiate v) = .ok none) :
    Explores p (.eq u v) ρ s [] 0
  | disj {g h : Goal} {ρ : Scope} {s : State} {answers answers' : List State} {n m : Nat}
    (hg : Explores p g ρ s answers n) (hh : Explores p h ρ s answers' m) :
    Explores p (.disj g h) ρ s (answers ++ answers') (n + m)
  /-- The second goal is searched from every answer of the first one. -/
  | conj {g h : Goal} {ρ : Scope} {s : State} {answers : List State} {n : Nat}
    {out : State → List State} {cost : State → Nat} (hg : Explores p g ρ s answers n)
    (hh : ∀ a ∈ answers, Explores p h ρ a (out a) (cost a)) :
    Explores p (.conj g h) ρ s (answers.flatMap out) (n + (answers.map cost).sum)
  | fresh {x y : Var} {g : Goal} {ρ : Scope} {s s' : State} {answers : List State} {n : Nat}
    (hf : s.fresh = .ok (y, s')) (hg : Explores p g ((x, .var y) :: ρ) s' answers n) :
    Explores p (.fresh x g) ρ s answers n
  /-- A call counts, and leads into the body of the relation. -/
  | call {r : RelName} {args : List Term} {ρ : Scope} {s : State} {answers : List State} {n : Nat}
    (hbody : Explores p (p.definition r).body
      (.ofArgs (p.definition r).params (args.map ρ.instantiate)) s answers n) :
    Explores p (.call r args) ρ s answers (n + 1)

namespace Goal

variable {p : Program} {g : Goal} {ρ : Scope} {s : State} {st : Answers}
  {answers items : List State} {n m : Nat}

/-! ## Finite trees are searched to their end -/

theorem Explores.acyclic (h : g.Explores p ρ s answers n) (hs : s.store.Acyclic) :
    ∀ a ∈ answers, a.store.Acyclic := by
  induction h with
  | succeed => exact List.forall_mem_singleton.2 hs
  | fail | unsolvable => exact nofun
  | @solved u v ρ s r h =>
    obtain ⟨o, ho, hunify⟩ := hs.unify_eq (ρ.instantiate u) (ρ.instantiate v)
    rw [h] at ho
    cases ho
    cases hunify with
    | solved hr => exact List.forall_mem_singleton.2 hr.acyclic
  | disj _ _ ihg ihh => exact List.forall_mem_append.2 ⟨ihg hs, ihh hs⟩
  | conj _ _ ihg ihh =>
    intro b hb
    obtain ⟨a, ha, hb⟩ := List.mem_flatMap.1 hb
    exact ihh a ha (ihg hs a ha) b hb
  | fresh hf _ ih =>
    obtain ⟨-, rfl⟩ := State.fresh_eq_ok hf
    exact ih hs
  | call _ ih => exact ih hs

/-- The goal of a finite tree gives a stream that ends, with the answers in some order, and that is
forced once for every call. -/
theorem Explores.exists_ends (h : g.Explores p ρ s answers n) (hs : s.store.Acyclic) (m : Nat) :
    ∃ st items, g.Gives p m ρ s st ∧ st.Ends (Closure.run p (m + 1)) items n ∧
      items.Perm answers := by
  induction h with
  | succeed => exact ⟨_, _, gives_succeed.2 rfl, Ends.empty.cons, .refl _⟩
  | fail => exact ⟨_, _, gives_fail.2 rfl, .empty, .nil⟩
  | solved h =>
    refine ⟨_, _, ⟨[], ?_⟩, Ends.empty.cons, .refl _⟩
    rw [Closure.run_eq, h]
    rfl
  | unsolvable h =>
    refine ⟨_, _, ⟨[], ?_⟩, .empty, .nil⟩
    rw [Closure.run_eq, h]
    rfl
  | disj _ _ ihg ihh =>
    obtain ⟨gs, items, hgs, hends, hperm⟩ := ihg hs
    obtain ⟨hs, items', hhs, hends', hperm'⟩ := ihh hs
    obtain ⟨out, hout, happend⟩ := hends.append hends'
    exact ⟨_, out, gives_disj.2 ⟨gs, hs, hgs, hhs, rfl⟩, happend, hout.trans (hperm.append hperm')⟩
  | @conj g h ρ s answers n out cost hg _ ihg ihh =>
    obtain ⟨gs, items, hgs, hends, hperm⟩ := ihg hs
    have hparts : ∀ a ∈ items, ∃ part events out',
        Closure.run p (m + 1) ⟨h, ρ⟩ a = .value part events ∧
          part.Ends (Closure.run p (m + 1)) out' (cost a) ∧ out'.Perm (out a) := by
      intro a ha
      have ha := hperm.mem_iff.1 ha
      obtain ⟨part, out', ⟨events, hpart⟩, hends, hperm⟩ := ihh a ha (hg.acyclic hs a ha)
      exact ⟨part, events, out', hpart, hends, hperm⟩
    obtain ⟨st, out', hmaps, hst, hout⟩ := hends.exists_maps hparts
    rw [(hperm.map cost).sum_eq] at hst
    exact ⟨st, out', gives_conj.2 ⟨gs, hgs, hmaps⟩, hst, hout.trans (hperm.flatMap_right out)⟩
  | fresh hf _ ih =>
    obtain ⟨-, rfl⟩ := State.fresh_eq_ok hf
    obtain ⟨st, items, hg, hends, hperm⟩ := ih hs
    exact ⟨st, items, gives_fresh_iff.2 ⟨_, _, hf, hg⟩, hends, hperm⟩
  | @call r args ρ s answers n _ ih =>
    obtain ⟨st, items, ⟨events, hbody⟩, hends, hperm⟩ := ih hs
    obtain ⟨log, happly⟩ := (p.definition r).exists_apply hs (args.map ρ.instantiate)
    exact ⟨_, items, ⟨log, happly⟩, hends.force rfl hbody, hperm⟩

/-- Where a goal gives a stream that ends, the number of forcings is that of the calls. -/
theorem Explores.eq_of_ends (h : g.Explores p ρ s answers n) (hs : s.store.Acyclic)
    {k : Nat} (hgives : g.Gives p m ρ s st) (hends : st.Ends (Closure.run p (m + 1)) items k) :
    k = n ∧ items.Perm answers := by
  obtain ⟨st', items', hgives', hends', hperm⟩ := h.exists_ends hs m
  obtain rfl := hgives.unique hgives'
  obtain ⟨rfl, rfl⟩ := hends.unique hends'
  exact ⟨rfl, hperm⟩

/-! ## No other trees are -/

/-- Where a pure goal gives a stream that ends, its tree is finite. -/
theorem Gives.exists_explores (hp : p.Pure) (hg : g.Pure) (hs : s.store.Acyclic)
    (hgives : g.Gives p m ρ s st) (hends : st.Ends (Closure.run p (m + 1)) items n) :
    ∃ answers k, g.Explores p ρ s answers k := by
  -- a call leads to another goal, but has been forced then
  induction n using Nat.strong_induction_on generalizing g ρ s st items with
  | _ n ihn =>
    induction g generalizing n ρ s st items with
    | succeed => exact ⟨_, _, .succeed⟩
    | fail => exact ⟨_, _, .fail⟩
    | eq u v =>
      rcases gives_eq hgives with ⟨r, hr, -⟩ | ⟨hnone, -⟩
      · exact ⟨_, _, .solved hr⟩
      · exact ⟨_, _, .unsolvable hnone⟩
    | disj g h ihg ihh =>
      obtain ⟨gs, hs', hgs, hhs, rfl⟩ := gives_disj.1 hgives
      obtain ⟨_, k, _, k', hendsg, hendsh, rfl⟩ := hends.of_append
      obtain ⟨_, _, hexpg⟩ := ihg k (fun i hi => ihn i (by omega)) hg.1 hs hgs hendsg
      obtain ⟨_, _, hexph⟩ := ihh k' (fun i hi => ihn i (by omega)) hg.2 hs hhs hendsh
      exact ⟨_, _, hexpg.disj hexph⟩
    | conj g h ihg ihh =>
      obtain ⟨gs, hgs, hmaps⟩ := gives_conj.1 hgives
      obtain ⟨items, k, hendsg, hk, hparts⟩ := hmaps.exists_ends hends
      obtain ⟨answers, _, hexpg⟩ := ihg k (fun i hi => ihn i (by omega)) hg.1 hs hgs hendsg
      have hperm := (hexpg.eq_of_ends hs hgs hendsg).2
      have hexph : ∀ a ∈ answers, ∃ out cost, h.Explores p ρ a out cost := by
        intro a ha
        obtain ⟨part, events, _, i, hpart, hendsh, hi⟩ := hparts a (hperm.mem_iff.2 ha)
        exact ihh i (fun j hj => ihn j (by omega)) hg.2 (hexpg.acyclic hs a ha) ⟨events, hpart⟩ hendsh
      choose! out cost hexph using hexph
      exact ⟨_, _, hexpg.conj hexph⟩
    | fresh x g ih =>
      obtain ⟨y, b, hf, hbody⟩ := gives_fresh_iff.1 hgives
      have hb : b.store.Acyclic := by
        rw [(State.fresh_eq_ok hf).2]
        exact hs
      obtain ⟨_, _, hexp⟩ := ih n ihn hg hb hbody hends
      exact ⟨_, _, hexp.fresh hf⟩
    | call r args =>
      obtain rfl := gives_call hgives
      obtain ⟨st', log, k, hforce, rfl, hrest⟩ := hends.exists_force rfl
      obtain ⟨_, _, hexp⟩ := ihn k (Nat.lt_succ_self k) (hp.definition r) hs ⟨log, hforce⟩ hrest
      exact ⟨_, _, .call hexp⟩
    | ifte | once => exact hg.elim

end Goal

end Relational
