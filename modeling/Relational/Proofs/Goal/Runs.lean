import Relational.Proofs.Goal.Branch
import Relational.Proofs.Goal.Budget
import Relational.Proofs.LazyStream.Pulling
import Relational.Query

/-!
# Ways of asking for answers

A run asks for states up to a limit and reports how many suspensions it has forced; one can also take
states one by one, and a query shows its variable in each of them. All of these pull the same stream,
and none pulls it further than the last state that it gives (`run_eq_first`). So what the first steps
of a goal have shown is what each of them gives, and what comes first does not depend on how much is
asked for. What is pulled also decides whether a run comes to its end: then there is a budget that
suffices, and all larger ones do (`Goal.Pulled.exists_run`).
-/

namespace Relational

open LazyStream Logged

variable {p : Program} {g : Goal} {s : State} {limit : Limit} {states : List State}
  {n m k rounds : Nat} {events : List Event}

namespace Goal

/-- Up to the limit, the answers of a goal from the empty state have these states among them, and so
many suspensions before the last of them or before the end. -/
def Pulled (p : Program) (rounds : Nat) (g : Goal) (limit : Limit) (states : List State) (n : Nat) :
    Prop :=
  ∃ answers log, g.answers p rounds .empty = .value answers log ∧
    LazyStream.Pulled (Closure.run p rounds) limit answers states n

/-- The first steps of a goal say what is pulled. -/
theorem pulled_of_steps {steps : List (Step State)}
    (h : g.steps p rounds .empty k = .value steps events)
    (hn : n ≤ (Step.elements steps).length ∨ .stop ∈ steps) :
    g.Pulled p rounds (.atMost n) ((Step.elements steps).take n) (Step.forcedFor n steps) := by
  obtain ⟨answers, log, _, hanswers, htrace⟩ := bind_eq_value_iff.1 ⟨events, h⟩
  exact ⟨answers, log, hanswers, pulled_of_trace htrace hn⟩

/-- A run reports what it gives and how often it has forced, and that is what is pulled. -/
theorem pulled_of_run (h : g.run p rounds limit = .value states events) :
    ∃ n before, g.Pulled p rounds limit states n ∧
      events = before ++ [.finished limit states.length n] := by
  cases hanswers : g.answers p rounds .empty with
  | fault e => rw [run, hanswers, fault_bind] at h; cases h
  | value answers before =>
    cases hcollect : answers.collect (Closure.run p rounds) rounds limit with
    | fault e => rw [run, hanswers, value_bind, hcollect, fault_bind] at h; cases h
    | value found log =>
      obtain ⟨states', n⟩ := found
      rw [run, hanswers, value_bind, hcollect] at h
      cases h
      exact ⟨n, before ++ log, ⟨answers, before, hanswers, pulled_of_collect hcollect⟩, by
        simp⟩

/-- A run gives what is pulled, with every budget that is large enough. -/
theorem Pulled.exists_run (h : g.Pulled p rounds limit states n) :
    ∃ N, ∀ rounds ≥ N, ∃ before,
      g.run p rounds limit = .value states (before ++ [.finished limit states.length n]) := by
  obtain ⟨answers, log, hanswers, hpulled⟩ := h
  obtain ⟨r, log', hcollect⟩ := hpulled.exists_collect
  refine ⟨max rounds r, fun m hm => ?_⟩
  have hm' : rounds ≤ m ∧ r ≤ m := by omega
  have hanswers' : g.answers p m .empty = .value answers log :=
    (Closure.run_approximates hm'.1 ⟨g, []⟩ .empty).eq_value hanswers
  have hcollect' := (collect_approximates (Closure.run_approximates hm'.1) hm'.2 limit
    answers).eq_value hcollect
  refine ⟨log ++ log', ?_⟩
  rw [run, hanswers', value_bind, hcollect', value_bind]
  simp [Logged.log, pure_eq, after]

/-- Taking states one by one gives what is pulled, with every budget that is large enough. -/
theorem Pulled.exists_first (h : g.Pulled p rounds (.atMost k) states n) :
    ∃ N, ∀ rounds ≥ N, ∃ events, g.first p rounds k = .value states events := by
  obtain ⟨answers, log, hanswers, hpulled⟩ := h
  obtain ⟨r, log', htake⟩ := hpulled.exists_take
  refine ⟨max rounds r, fun m hm => ?_⟩
  have hm' : rounds ≤ m ∧ r ≤ m := by omega
  have hanswers' : g.answers p m .empty = .value answers log :=
    (Closure.run_approximates hm'.1 ⟨g, []⟩ .empty).eq_value hanswers
  have htake' := (take_approximates (Closure.run_approximates hm'.1) hm'.2 k answers).eq_value htake
  rw [first, hanswers', value_bind, htake']
  exact ⟨_, rfl⟩

/-- What a run gives comes first in what a run with a larger limit gives, whatever their budgets. -/
theorem run_initial {r r' : Nat} {limit' : Limit} {states' : List State} {events' : List Event}
    (h : g.run p r limit = .value states events) (h' : g.run p r' limit' = .value states' events')
    (hle : ∀ k, limit'.isReached k = true → limit.isReached k = true) : states <+: states' := by
  have hmax := (run_approximates (Nat.le_max_left r r') g limit).eq_value h
  have hmax' := (run_approximates (Nat.le_max_right r r') g limit').eq_value h'
  obtain ⟨_, _, ⟨answers, _, hanswers, hpulled⟩, -⟩ := pulled_of_run hmax
  obtain ⟨_, _, ⟨answers', _, hanswers', hpulled'⟩, -⟩ := pulled_of_run hmax'
  rw [hanswers] at hanswers'
  cases hanswers'
  exact hpulled.initial hpulled' hle

end Goal

/-! ## Queries -/

/-- A variable is shown in every state that has an acyclic store. -/
theorem State.exists_reifyEach (x : Var) (h : ∀ s ∈ states, s.store.Acyclic) :
    ∃ terms, State.reifyEach x states = .ok terms ∧
      List.Forall₂ (fun s t => s.reify (.var x) = .ok t) states terms := by
  induction states with
  | nil => exact ⟨[], rfl, .nil⟩
  | cons s states ih =>
    have ⟨hs, hstates⟩ := List.forall_mem_cons.1 h
    obtain ⟨terms, hterms, hall⟩ := ih hstates
    have hreify : s.reify (.var x) = _ := hs.reify_eq (.var x)
    refine ⟨_ :: terms, ?_, hall.cons hreify⟩
    rw [State.reifyEach] at hterms ⊢
    rw [List.mapM_cons, hreify, hterms]
    rfl

/-- The states that the first steps of a goal show have acyclic stores. -/
theorem Goal.acyclic_of_mem_elements {steps : List (Step State)}
    (h : g.steps p rounds .empty k = .value steps events) :
    ∀ b ∈ Step.elements steps, b.store.Acyclic := by
  have hempty : State.empty.store.Acyclic := Store.acyclic_empty
  have hmeets := Goal.steps_meets (p := p) (g := g) hempty rounds k
  rw [h] at hmeets
  exact fun b hb => (hmeets b (Step.emit_mem_of_mem_elements hb)).acyclic hempty

/-! ## The main statement -/

/-- Where the first steps of a goal show `n` states, or the end, a run up to `n` states gives those
that come first in them, and so does taking `n` states one by one; the run reports that it has forced
as often as the steps do before the last of these states, or before the end. The states come
first in what a run with a larger limit gives, if it comes to its end. And a query for the goal gives
its variable as it is shown in each of the states, whether it is run or answered one by one. -/
theorem run_eq_first {steps : List (Step State)}
    (h : g.steps p rounds .empty k = .value steps events)
    (hn : n ≤ (Step.elements steps).length ∨ .stop ∈ steps) :
    (∃ N, ∀ rounds ≥ N,
      (∃ before, g.run p rounds (.atMost n) = .value ((Step.elements steps).take n)
        (before ++ [.finished (.atMost n) ((Step.elements steps).take n).length
          (Step.forcedFor n steps)])) ∧
      ∃ log, g.first p rounds n = .value ((Step.elements steps).take n) log) ∧
    (∀ rounds states log, (∃ m ≥ n, g.run p rounds (.atMost m) = .value states log) ∨
      g.run p rounds .all = .value states log → (Step.elements steps).take n <+: states) ∧
    ∀ q : Query, q.search = g → ∃ terms,
      List.Forall₂ (fun s t => s.reify (.var (.fresh 0)) = .ok t) ((Step.elements steps).take n)
        terms ∧
      ∃ N, ∀ rounds ≥ N, (∃ log, q.run p rounds (.atMost n) = .value terms log) ∧
        ∃ log, q.first p rounds n = .value terms log := by
  have hpulled := Goal.pulled_of_steps h hn
  obtain ⟨N, hN⟩ := hpulled.exists_run
  obtain ⟨M, hM⟩ := hpulled.exists_first
  refine ⟨⟨max N M, fun r hr => ⟨hN r (by omega), hM r (by omega)⟩⟩, ?_, ?_⟩
  · obtain ⟨before, hrun⟩ := hN N (Nat.le_refl N)
    rintro r states log (⟨m, hm, hlarger⟩ | hall)
    · refine Goal.run_initial hrun hlarger fun j hj => ?_
      exact decide_eq_true (Nat.le_trans hm (of_decide_eq_true hj))
    · exact Goal.run_initial hrun hall nofun
  · rintro q rfl
    have hacyclic := Goal.acyclic_of_mem_elements h
    have htaken : ∀ b ∈ (Step.elements steps).take n, b.store.Acyclic :=
      fun b hb => hacyclic b (List.mem_of_mem_take hb)
    obtain ⟨terms, hterms, hshown⟩ := State.exists_reifyEach (.fresh 0) htaken
    refine ⟨terms, hshown, max N M, fun r hr => ⟨?_, ?_⟩⟩
    · obtain ⟨before, hrun⟩ := hN r (by omega)
      rw [Query.run, hrun, value_bind, Query.answersIn, hterms]
      exact ⟨_, rfl⟩
    · obtain ⟨log, hfirst⟩ := hM r (by omega)
      rw [Query.first, hfirst, value_bind, Query.answersIn, hterms]
      exact ⟨_, rfl⟩

/-- Beside a goal that is forced for ever, and before answers without end, two answers take three
forcings, and nothing behind them is looked at. -/
theorem run_eq_first_alwayso :
    let q := Query.one ⟨"q"⟩ [.disj (.call .nevero [])
      (.disj (.eq (.named "q") (.list [.named "x", .sym "a"])) (.call .alwayso []))]
    let s : State := ⟨Store.empty.push (.fresh 0) (.list [.named "x", .sym "a"]), 1⟩
    let b : State := ⟨.empty, 1⟩
    q.search.steps [] 1 .empty 5 = .value [.force, .emit s, .force, .force, .emit b] [] ∧
      ∃ N, ∀ rounds ≥ N,
        (∃ before, q.search.run [] rounds (.atMost 2) =
          .value [s, b] (before ++ [.finished (.atMost 2) 2 3])) ∧
        ∃ log, q.first [] rounds 2 = .value [.list [.sym "_.0", .sym "a"], .sym "_.0"] log := by
  intro q s b
  have hsteps : q.search.steps [] 1 .empty 5 =
      .value [.force, .emit s, .force, .force, .emit b] [] := by decide +kernel
  have helements : Step.elements [.force, .emit s, .force, .force, .emit b] = [s, b] := rfl
  obtain ⟨⟨N, hN⟩, -, hquery⟩ := run_eq_first (n := 2) hsteps (.inl (Nat.le_refl 2))
  obtain ⟨terms, hterms, M, hM⟩ := hquery q rfl
  refine ⟨hsteps, max N M, fun rounds hrounds => ⟨(hN rounds (by omega)).1, ?_⟩⟩
  have hs : s.reify (.var (.fresh 0)) = .ok (.list [.sym "_.0", .sym "a"]) := by decide +kernel
  have hb : b.reify (.var (.fresh 0)) = .ok (.sym "_.0") := by decide +kernel
  rw [helements] at hterms
  cases hterms with
  | cons hfirst hterms =>
    cases hterms with
    | cons hsecond hterms =>
      cases hterms
      rw [hs] at hfirst
      rw [hb] at hsecond
      cases hfirst
      cases hsecond
      exact (hM rounds (by omega)).2

end Relational
