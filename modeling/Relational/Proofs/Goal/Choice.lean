import Relational.Proofs.Goal.Budget
import Relational.Proofs.LazyStream.Forcing

/-!
# Committing to a line

A choice goes through its lines from the first one on, and commits to the first line whose head has
an answer. The head is forced as far as its first answer and no further, and what has been computed
of its stream is what the other goals of the line go on with. So the steps of a soft cut are those
of the conjunction of the line, without the forcings before the first answer of the head, as they
are for any stream (`LazyStream.ForcesTo.trace_softCut`, `AnswersFirst.ifte_steps`); and where the
head ends without an answer, what it has done leaves no trace, and the other lines start from the
same state (`EndsEmpty.exists_ifte`). This goes for any number of lines
(`first_answering_line_commits`).
-/

namespace Relational

open LazyStream Logged

variable {p : Program} {ρ : Scope} {s a : State} {g yes no : Goal} {c : Closure} {n : Nat}

namespace Closure

/-- The first answer is `a`, and it is forced `n` times before. -/
def AnswersFirst (p : Program) (c : Closure) (s : State) (n : Nat) (a : State) : Prop :=
  ∃ rounds events,
    c.steps p rounds s (n + 1) = .value (List.replicate n .force ++ [.emit a]) events

/-- There is no answer: after some number of forcings the answers are at their end. -/
def EndsEmpty (p : Program) (c : Closure) (s : State) : Prop :=
  ∃ n rounds events, c.steps p rounds s (n + 1) = .value (List.replicate n .force ++ [.stop]) events

theorem run_ifte : Closure.run p (n + 1) ⟨.ifte g yes no, ρ⟩ s =
    Closure.run p (n + 1) ⟨g, ρ⟩ s >>= fun gs =>
      gs.softCut (Closure.run p n) n (Closure.run p (n + 1) ⟨yes, ρ⟩) ⟨yes, ρ⟩
        (Closure.run p (n + 1) ⟨no, ρ⟩ s) := rfl

theorem run_once : Closure.run p (n + 1) ⟨.once g, ρ⟩ s =
    Closure.run p (n + 1) ⟨g, ρ⟩ s >>= fun gs => gs.once (Closure.run p n) n := by
  rw [Closure.run, Goal.apply, Closure.run]
  refine bind_congr fun gs => bind_congr fun st => ?_
  cases st <;> rfl

/-- With a large enough budget, forcing the answers `n` times gives the stream `st`. -/
def Matures (p : Program) (c : Closure) (s : State) (n : Nat) (st : Answers) : Prop :=
  ∃ N gs log, ∀ rounds ≥ N, Closure.run p rounds c s = .value gs log ∧
    ForcesTo (Closure.run p rounds) gs n st

/-- Steps that begin with forcings are made on the stream that these lead to, with every budget that
is large enough. -/
theorem exists_matures {rounds k : Nat} {rest : List (Step State)} {events : List Event}
    (h : c.steps p rounds s (n + k) = .value (List.replicate n .force ++ rest) events) :
    ∃ st log, Matures p c s n st ∧ st.trace (Closure.run p rounds) k = .value rest log := by
  obtain ⟨gs, log, _, hgs, htrace⟩ := bind_eq_value_iff.1 ⟨events, h⟩
  obtain ⟨st, log', hst, hrest⟩ := exists_forcesTo htrace
  refine ⟨st, log', ⟨rounds, gs, log, fun m hm => ⟨?_, ?_⟩⟩, hrest⟩
  · exact (run_approximates hm c s).eq_value hgs
  · exact hst.mono (run_approximates hm)

theorem AnswersFirst.exists_matures (h : AnswersFirst p c s n a) :
    ∃ d, Matures p c s n (.cons a d) := by
  obtain ⟨rounds, events, h⟩ := h
  obtain ⟨st, log, hst, htrace⟩ := Closure.exists_matures h
  obtain ⟨d, rfl⟩ := eq_cons_of_trace htrace
  exact ⟨d, hst⟩

theorem EndsEmpty.exists_matures (h : EndsEmpty p c s) : ∃ n, Matures p c s n .empty := by
  obtain ⟨n, rounds, events, h⟩ := h
  obtain ⟨st, log, hst, htrace⟩ := Closure.exists_matures h
  obtain rfl := eq_empty_of_trace htrace
  exact ⟨n, hst⟩

/-- The budget of a goal leaves enough for the loop to its first answer. -/
theorem Matures.exists_run {st : Answers} (h : Matures p c s n st) :
    ∃ N, ∀ rounds ≥ N, ∃ m gs log, rounds = m + 1 ∧ n < m ∧
      Closure.run p (m + 1) c s = .value gs log ∧ ForcesTo (Closure.run p m) gs n st := by
  obtain ⟨N, gs, log, h⟩ := h
  refine ⟨max N (n + 1) + 1, fun rounds hrounds => ?_⟩
  obtain ⟨m, rfl⟩ : ∃ m, rounds = m + 1 := ⟨rounds - 1, by omega⟩
  exact ⟨m, gs, log, rfl, by omega, (h (m + 1) (by omega)).1, (h m (by omega)).2⟩

/-- Goals whose answers are the same stream have the same steps. -/
theorem toExcept_steps_of_run {c' : Closure} {s' : State} {rounds : Nat} {log : List Event}
    (h : Closure.run p rounds c s = (Closure.run p rounds c' s').after log) (k : Nat) :
    (c.steps p rounds s k).toExcept = (c'.steps p rounds s' k).toExcept := by
  rw [steps, steps, h, after_bind, toExcept_after]

/-! ## The soft cut -/

/-- Where the condition ends without an answer, a soft cut is its other goal. -/
theorem EndsEmpty.exists_ifte (h : EndsEmpty p ⟨g, ρ⟩ s) (yes no : Goal) :
    ∃ N, ∀ rounds ≥ N, ∃ log, Closure.run p rounds ⟨.ifte g yes no, ρ⟩ s =
      (Closure.run p rounds ⟨no, ρ⟩ s).after log := by
  obtain ⟨n, hmatures⟩ := h.exists_matures
  obtain ⟨N, h⟩ := hmatures.exists_run
  refine ⟨N, fun rounds hrounds => ?_⟩
  obtain ⟨m, gs, log, rfl, hn, hgs, hforces⟩ := h rounds hrounds
  obtain ⟨log', hcut⟩ := hforces.exists_softCut hn
  refine ⟨log ++ log', ?_⟩
  rw [run_ifte, hgs, value_bind, hcut, after_after]

/-- Where the condition has an answer, the steps of a soft cut are those of the conjunction behind the
forcings before that answer. -/
theorem AnswersFirst.ifte_steps (h : AnswersFirst p ⟨g, ρ⟩ s n a) (yes no : Goal) :
    ∃ N, ∀ rounds ≥ N, ∀ k, (Closure.steps p rounds ⟨.conj g yes, ρ⟩ s (n + k)).toExcept =
      (List.replicate n .force ++ ·) <$>
        (Closure.steps p rounds ⟨.ifte g yes no, ρ⟩ s k).toExcept := by
  obtain ⟨d, hmatures⟩ := h.exists_matures
  obtain ⟨N, h⟩ := hmatures.exists_run
  refine ⟨N, fun rounds hrounds k => ?_⟩
  obtain ⟨m, gs, log, rfl, hn, hgs, hforces⟩ := h rounds hrounds
  rw [steps, steps, run_conj, run_ifte, hgs, value_bind, value_bind, after_bind, after_bind,
    toExcept_after, toExcept_after]
  exact hforces.trace_softCut (run_approximates (Nat.le_succ m)) hn k

/-! ## One answer -/

theorem AnswersFirst.exists_once (h : AnswersFirst p ⟨g, ρ⟩ s n a) :
    ∃ N, ∀ rounds ≥ N, ∃ log, Closure.run p rounds ⟨.once g, ρ⟩ s = .value (.singleton a) log := by
  obtain ⟨d, hmatures⟩ := h.exists_matures
  obtain ⟨N, h⟩ := hmatures.exists_run
  refine ⟨N, fun rounds hrounds => ?_⟩
  obtain ⟨m, gs, log, rfl, hn, hgs, hforces⟩ := h rounds hrounds
  obtain ⟨log', honce⟩ := hforces.exists_once_cons hn
  rw [run_once, hgs, value_bind, honce]
  exact ⟨_, rfl⟩

theorem EndsEmpty.exists_once (h : EndsEmpty p ⟨g, ρ⟩ s) :
    ∃ N, ∀ rounds ≥ N, ∃ log, Closure.run p rounds ⟨.once g, ρ⟩ s = .value .empty log := by
  obtain ⟨n, hmatures⟩ := h.exists_matures
  obtain ⟨N, h⟩ := hmatures.exists_run
  refine ⟨N, fun rounds hrounds => ?_⟩
  obtain ⟨m, gs, log, rfl, hn, hgs, hforces⟩ := h rounds hrounds
  obtain ⟨log', honce⟩ := hforces.exists_once_empty hn
  rw [run_once, hgs, value_bind, honce]
  exact ⟨_, rfl⟩

/-- The first answer of a goal is the first one under `once` too, and has come before any step. -/
theorem AnswersFirst.once (h : AnswersFirst p ⟨g, ρ⟩ s n a) :
    AnswersFirst p ⟨.once g, ρ⟩ s 0 a := by
  obtain ⟨N, h⟩ := h.exists_once
  obtain ⟨log, hlog⟩ := h N (Nat.le_refl N)
  refine ⟨N, log, ?_⟩
  rw [steps, hlog, value_bind, LazyStream.singleton, trace_cons, trace_zero, pure_eq, map_value]
  simp [after]

theorem EndsEmpty.once (h : EndsEmpty p ⟨g, ρ⟩ s) : EndsEmpty p ⟨.once g, ρ⟩ s := by
  obtain ⟨N, h⟩ := h.exists_once
  obtain ⟨log, hlog⟩ := h N (Nat.le_refl N)
  refine ⟨0, N, log, ?_⟩
  rw [steps, hlog, value_bind, trace_empty, pure_eq]
  simp [after]

/-- Behind `once`, a goal goes on from the first answer. -/
theorem AnswersFirst.once_conj_steps (h : AnswersFirst p ⟨g, ρ⟩ s n a) (h' : Goal) :
    ∃ N, ∀ rounds ≥ N, ∀ k, (Closure.steps p rounds ⟨.conj (.once g) h', ρ⟩ s k).toExcept =
      (Closure.steps p rounds ⟨h', ρ⟩ a k).toExcept := by
  obtain ⟨N, h⟩ := h.exists_once
  refine ⟨N + 1, fun rounds hrounds k => ?_⟩
  obtain ⟨m, rfl⟩ : ∃ m, rounds = m + 1 := ⟨rounds - 1, by omega⟩
  obtain ⟨log, hlog⟩ := h (m + 1) (by omega)
  rw [steps, run_conj, hlog, value_bind, appendMap_singleton, after_bind, toExcept_after,
    bind_map_left]
  simp only [trace_append_empty]
  rfl

/-- The goals of a line of which the head is under `once` go on from the first answer. -/
theorem AnswersFirst.once_conjAll_steps (h : AnswersFirst p ⟨g, ρ⟩ s n a) (rest : List Goal) :
    ∃ N, ∀ rounds ≥ N, ∀ k,
      (Closure.steps p rounds ⟨.conjAll (.once g :: rest), ρ⟩ s k).toExcept =
        (Closure.steps p rounds ⟨.conjAll rest, ρ⟩ a k).toExcept := by
  cases rest with
  | cons g' rest => exact h.once_conj_steps (.conjAll (g' :: rest))
  | nil =>
    obtain ⟨N, h⟩ := h.exists_once
    refine ⟨N + 1, fun rounds hrounds k => ?_⟩
    obtain ⟨m, rfl⟩ : ∃ m, rounds = m + 1 := ⟨rounds - 1, by omega⟩
    obtain ⟨log, hlog⟩ := h (m + 1) (by omega)
    have hrun : Closure.run p (m + 1) ⟨.conjAll [.once g], ρ⟩ s =
        (Closure.run p (m + 1) ⟨.conjAll [], ρ⟩ a).after log := by
      have hsucceed : Closure.run p (m + 1) ⟨.conjAll [], ρ⟩ a = .value (.singleton a) [] := rfl
      rw [hsucceed, after, List.append_nil]
      exact hlog
    exact toExcept_steps_of_run hrun k

/-- A line of which the head is under `once` and ends without an answer has no answer. -/
theorem EndsEmpty.exists_once_conjAll (h : EndsEmpty p ⟨g, ρ⟩ s) (rest : List Goal) :
    ∃ N, ∀ rounds ≥ N, ∃ log,
      Closure.run p rounds ⟨.conjAll (.once g :: rest), ρ⟩ s = .value .empty log := by
  obtain ⟨N, h⟩ := h.exists_once
  cases rest with
  | nil => exact ⟨N, h⟩
  | cons g' rest =>
    refine ⟨N + 1, fun rounds hrounds => ?_⟩
    obtain ⟨m, rfl⟩ : ∃ m, rounds = m + 1 := ⟨rounds - 1, by omega⟩
    obtain ⟨log, hlog⟩ := h (m + 1) (by omega)
    have hconj : Goal.conjAll (.once g :: g' :: rest) = .conj (.once g) (.conjAll (g' :: rest)) := rfl
    rw [hconj, run_conj, hlog, value_bind, appendMap_empty]
    exact ⟨_, rfl⟩

end Closure

/-! ## Lines -/

namespace Goal

theorem conda_cons (l : Line) {lines : List Line} (h : lines ≠ []) :
    conda (l :: lines) = .ifte l.head (conjAll l.rest) (conda lines) := by
  cases lines with
  | nil => exact absurd rfl h
  | cons l' lines => rfl

/-- Lines of which the heads end without an answer are gone through, from the first one on. -/
theorem exists_conda_append {tried : List Line}
    (htried : ∀ l ∈ tried, Closure.EndsEmpty p ⟨l.head, ρ⟩ s) (l : Line) (later : List Line) :
    ∃ N, ∀ rounds ≥ N, ∃ log, Closure.run p rounds ⟨conda (tried ++ l :: later), ρ⟩ s =
      (Closure.run p rounds ⟨conda (l :: later), ρ⟩ s).after log := by
  induction tried with
  | nil => exact ⟨0, fun _ _ => ⟨[], (after_nil _).symm⟩⟩
  | cons first tried ih =>
    have ⟨hfirst, htried⟩ := List.forall_mem_cons.1 htried
    obtain ⟨N, hN⟩ := ih htried
    obtain ⟨M, hM⟩ := hfirst.exists_ifte (conjAll first.rest) (conda (tried ++ l :: later))
    refine ⟨max N M, fun rounds hrounds => ?_⟩
    obtain ⟨log, hlog⟩ := hN rounds (by omega)
    obtain ⟨log', hlog'⟩ := hM rounds (by omega)
    refine ⟨log' ++ log, ?_⟩
    rw [List.cons_append, conda_cons first (by simp), hlog', hlog, after_after]

/-- Under `once` the heads of lines end without an answer as they do alone. -/
theorem endsEmpty_once {tried : List Line}
    (htried : ∀ l ∈ tried, Closure.EndsEmpty p ⟨l.head, ρ⟩ s) :
    ∀ l ∈ tried.map (fun l => { l with head := once l.head }),
      Closure.EndsEmpty p ⟨l.head, ρ⟩ s := by
  intro l hl
  obtain ⟨l, hmem, rfl⟩ := List.mem_map.1 hl
  exact (htried l hmem).once

/-- Where all heads end without an answer, there is nothing to commit to. -/
theorem exists_condu_empty {lines : List Line}
    (h : ∀ l ∈ lines, Closure.EndsEmpty p ⟨l.head, ρ⟩ s) :
    ∃ N, ∀ rounds ≥ N, ∃ log, Closure.run p rounds ⟨condu lines, ρ⟩ s = .value .empty log := by
  rcases List.eq_nil_or_concat lines with rfl | ⟨tried, l, rfl⟩
  · refine ⟨1, fun rounds hrounds => ?_⟩
    obtain ⟨m, rfl⟩ : ∃ m, rounds = m + 1 := ⟨rounds - 1, by omega⟩
    exact ⟨[], rfl⟩
  · rw [List.concat_eq_append] at h ⊢
    obtain ⟨htried, hl⟩ := List.forall_mem_append.1 h
    obtain ⟨N, hN⟩ := exists_conda_append (endsEmpty_once htried) { l with head := once l.head } []
    obtain ⟨M, hM⟩ := (hl l (List.mem_singleton_self l)).exists_once_conjAll l.rest
    refine ⟨max N M, fun rounds hrounds => ?_⟩
    obtain ⟨log, hlog⟩ := hN rounds (by omega)
    obtain ⟨log', hlog'⟩ := hM rounds (by omega)
    rw [condu, List.map_append, List.map_singleton, hlog, conda, hlog']
    exact ⟨_, rfl⟩

/-- Of lines whose heads end without an answer and one whose head has one, with the first answer of
the head alone, the steps are those of the other goals of the line from that answer. -/
theorem condu_steps {tried later : List Line} {l : Line}
    (htried : ∀ l ∈ tried, Closure.EndsEmpty p ⟨l.head, ρ⟩ s)
    (h : Closure.AnswersFirst p ⟨l.head, ρ⟩ s n a) :
    ∃ N, ∀ rounds ≥ N, ∀ k,
      (Closure.steps p rounds ⟨condu (tried ++ l :: later), ρ⟩ s k).toExcept =
        (Closure.steps p rounds ⟨conjAll l.rest, ρ⟩ a k).toExcept := by
  let committed : Line := { l with head := once l.head }
  let untried : List Line := later.map fun l => { l with head := once l.head }
  obtain ⟨N, hN⟩ := exists_conda_append (endsEmpty_once htried) committed untried
  -- the last line needs no decision, and any other one is a soft cut
  obtain ⟨M, hM⟩ : ∃ M, ∀ rounds ≥ M, ∀ k,
      (Closure.steps p rounds ⟨conda (committed :: untried), ρ⟩ s k).toExcept =
        (Closure.steps p rounds ⟨conjAll l.rest, ρ⟩ a k).toExcept := by
    cases huntried : untried with
    | nil => exact h.once_conjAll_steps l.rest
    | cons l' rest =>
      obtain ⟨M, hM⟩ := h.once.ifte_steps (conjAll l.rest) (conda (l' :: rest))
      obtain ⟨K, hK⟩ := h.once_conj_steps (conjAll l.rest)
      refine ⟨max M K, fun rounds hrounds k => ?_⟩
      have hcut := hM rounds (by omega) k
      rw [Nat.zero_add, hK rounds (by omega) k] at hcut
      rw [hcut, conda_cons committed (List.cons_ne_nil _ _)]
      simp [committed]
  refine ⟨max N M, fun rounds hrounds k => ?_⟩
  obtain ⟨log, hlog⟩ := hN rounds (by omega)
  rw [condu, List.map_append, List.map_cons, ← hM rounds (by omega) k]
  exact Closure.toExcept_steps_of_run hlog k

end Goal

/-- Where the heads of the lines before it end without an answer, the soft cut commits to the first
line whose head has one: its steps are those of the conjunction of the line behind the forcings before
the first answer of the head. If there is no such line before the last one, its steps are those of the
last line. A committed choice goes on with the other goals of the line from the first answer of the
head, and is at its end at once where no head has an answer. All of this holds for every budget
that is large enough, and so do the steps of any number, whatever they end in. -/
theorem first_answering_line_commits {tried : List Goal.Line} (l : Goal.Line)
    (later : List Goal.Line) (htried : ∀ l ∈ tried, Closure.EndsEmpty p ⟨l.head, ρ⟩ s) :
    (∀ n a, Closure.AnswersFirst p ⟨l.head, ρ⟩ s n a → later ≠ [] →
      ∃ N, ∀ rounds ≥ N, ∀ k,
        (Closure.steps p rounds ⟨.conj l.head (.conjAll l.rest), ρ⟩ s (n + k)).toExcept =
          (List.replicate n .force ++ ·) <$>
            (Closure.steps p rounds ⟨.conda (tried ++ l :: later), ρ⟩ s k).toExcept) ∧
    (∃ N, ∀ rounds ≥ N, ∀ k,
      (Closure.steps p rounds ⟨.conda (tried ++ [l]), ρ⟩ s k).toExcept =
        (Closure.steps p rounds ⟨.conjAll (l.head :: l.rest), ρ⟩ s k).toExcept) ∧
    (∀ n a, Closure.AnswersFirst p ⟨l.head, ρ⟩ s n a →
      ∃ N, ∀ rounds ≥ N, ∀ k,
        (Closure.steps p rounds ⟨.condu (tried ++ l :: later), ρ⟩ s k).toExcept =
          (Closure.steps p rounds ⟨.conjAll l.rest, ρ⟩ a k).toExcept) ∧
    ∃ N, ∀ rounds ≥ N, ∃ log, Closure.run p rounds ⟨.condu tried, ρ⟩ s = .value .empty log := by
  refine ⟨fun n a h hlater => ?_, ?_, fun n a h => Goal.condu_steps htried h,
    Goal.exists_condu_empty htried⟩
  · obtain ⟨N, hN⟩ := Goal.exists_conda_append htried l later
    obtain ⟨M, hM⟩ := h.ifte_steps (.conjAll l.rest) (.conda later)
    refine ⟨max N M, fun rounds hrounds k => ?_⟩
    obtain ⟨log, hlog⟩ := hN rounds (by omega)
    rw [hM rounds (by omega) k, Closure.toExcept_steps_of_run hlog k, Goal.conda_cons l hlater]
  · obtain ⟨N, hN⟩ := Goal.exists_conda_append htried l []
    refine ⟨N, fun rounds hrounds k => ?_⟩
    obtain ⟨log, hlog⟩ := hN rounds hrounds
    exact Closure.toExcept_steps_of_run hlog k

/-- Where `l` is bound to `(a b)`, a line that asks for the item `b` in the first place is gone
through, and the next one commits to the item `a`, for which the search is forced three times; the item
`b` comes in the conjunction and under the soft cut alone, and what `alwayso` would give in neither. -/
theorem first_answering_line_commits_membero :
    let s : State := ⟨Store.empty.push ⟨"l"⟩ (.list [.sym "a", .sym "b"]), 3⟩
    let a : State := ⟨(s.store.push ⟨"x"⟩ (.sym "a")).push (.fresh 3) (.list [.sym "b"]), 4⟩
    let refuted := Goal.conj (.call .caro [.named "l", .named "x"]) (.eq (.named "x") (.sym "b"))
    let item := Goal.call .membero [.named "x", .named "l"]
    let rest := [Goal.eq (.named "y") (.named "x"), .call .alwayso []]
    let lines : List Goal.Line := [⟨refuted, []⟩, ⟨item, rest⟩, ⟨.call .alwayso [], []⟩]
    Closure.EndsEmpty [] ⟨refuted, []⟩ s ∧ Closure.AnswersFirst [] ⟨item, []⟩ s 3 a ∧
      (∃ N, ∀ rounds ≥ N, ∀ k,
        (Closure.steps [] rounds ⟨.conj item (.conjAll rest), []⟩ s (3 + k)).toExcept =
          ([.force, .force, .force] ++ ·) <$>
            (Closure.steps [] rounds ⟨.conda lines, []⟩ s k).toExcept) ∧
      ∃ N, ∀ rounds ≥ N, ∀ k, (Closure.steps [] rounds ⟨.condu lines, []⟩ s k).toExcept =
        (Closure.steps [] rounds ⟨.conjAll rest, []⟩ a k).toExcept := by
  intro s a refuted item rest lines
  have hrefuted : Closure.EndsEmpty [] ⟨refuted, []⟩ s := ⟨1, 3, [], by decide +kernel⟩
  have hitem : Closure.AnswersFirst [] ⟨item, []⟩ s 3 a := ⟨3, [], by decide +kernel⟩
  have htried : ∀ l ∈ [Goal.Line.mk refuted []], Closure.EndsEmpty [] ⟨l.head, []⟩ s :=
    List.forall_mem_singleton.2 hrefuted
  obtain ⟨hcut, -, hcommitted, -⟩ := first_answering_line_commits ⟨item, rest⟩
    [⟨.call .alwayso [], []⟩] htried
  exact ⟨hrefuted, hitem, hcut 3 a hitem (List.cons_ne_nil _ _), hcommitted 3 a hitem⟩

end Relational
