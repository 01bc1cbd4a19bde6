import Relational.Proofs.Goal.Pure
import Relational.Run

/-!
# Guarded recursion

A call is suspended before the body of its relation is looked at, so a relation may call itself at
once, as the first thing in its body, and still no single step of the search goes on for ever. For
pure goals from acyclic stores this is `search_steps_end`: applying the goal ends, and so does forcing
any stream that can be come by (`LazyStream.Reaches`). What stays within pure goals and acyclic stores
has no use for a budget either (`LazyStream.Within.force_congr`). It is left to the loops that force
again and again not to end, and on `nevero` they do not (`run_nevero`).
-/

namespace Relational

variable {κ α : Type}

/-- There is a value, or the counter overflows. -/
def Logged.Ends (c : Logged α) : Prop := c.Safe fun _ => True

theorem Logged.Safe.ends {Q : α → Prop} {c : Logged α} (h : c.Safe Q) : c.Ends := by
  cases c with
  | value a events => trivial
  | fault e => exact h

theorem Logged.after_eq_fault_iff {before : List Event} {c : Logged α} {e : Fault} :
    c.after before = .fault e ↔ c = .fault e := by
  cases c <;> simp [after]

namespace LazyStream

/-! ## Streams that can be come by -/

/-- The second stream is found in the first one, or in what forcing streams that are found there
gives. -/
inductive Reaches (run : κ → α → Logged (LazyStream κ α)) (s : LazyStream κ α) :
    LazyStream κ α → Prop
  | refl : Reaches run s s
  | tail {a : α} {d : LazyStream κ α} : Reaches run s (cons a d) → Reaches run s d
  | first {t u : LazyStream κ α} : Reaches run s (swap t u) → Reaches run s t
  | suspended {t u : LazyStream κ α} : Reaches run s (swap t u) → Reaches run s u
  | operand {t : LazyStream κ α} {f : κ} : Reaches run s (bind t f) → Reaches run s t
  | force {t u : LazyStream κ α} {events : List Event} :
    Reaches run s t → t.force run = .value u events → Reaches run s u

variable {run run' : κ → α → Logged (LazyStream κ α)} {C : κ → Prop} {P : α → Prop}
  {s t : LazyStream κ α}

namespace Within

/-- What the functions keep holds of all streams that can be come by. -/
theorem reaches (hrun : ∀ f a, C f → P a → (run f a).Safe (Within C P)) (hs : s.Within C P)
    (h : s.Reaches run t) : t.Within C P := by
  induction h with
  | refl => exact hs
  | tail _ ih | suspended _ ih => exact ih.2
  | first _ ih | operand _ ih => exact ih.1
  | force _ hforce ih =>
    have hsafe := ih.force hrun
    rwa [hforce] at hsafe

/-- Only the functions that a stream waits with have a say in what forcing it gives. -/
theorem force_congr (heq : ∀ f, C f → run f = run' f) (hs : s.Within C P) :
    s.force run = s.force run' := by
  induction s with
  | empty | cons => rfl
  | delay f a => exact congrFun (heq f hs.1) a
  | swap t s _ ih => rw [LazyStream.force, LazyStream.force, ih hs.2]
  | bind s f ih => rw [LazyStream.force, LazyStream.force, ih hs.1, heq f hs.2]

theorem trace_ends (hrun : ∀ f a, C f → P a → (run f a).Safe (Within C P)) (hs : s.Within C P)
    (k : Nat) : (s.trace run k).Ends := by
  cases h : s.trace run k with
  | value steps events => trivial
  | fault e =>
    obtain ⟨i, -, hi⟩ := trace_eq_fault_iff.1 h
    exact hs.eq_overflow hrun hi

/-- A loop to the next element that does not come to its end forces in every round. -/
theorem trace_of_mature_unending (hrun : ∀ f a, C f → P a → (run f a).Safe (Within C P))
    (hs : s.Within C P) {rounds : Nat} (h : s.mature run rounds = .fault .unending) :
    ∃ events, s.trace run rounds = .value (List.replicate rounds .force) events := by
  induction rounds generalizing s with
  | zero => exact ⟨[], trace_zero run s⟩
  | succ rounds ih =>
    cases hm : s.isMature with
    | true => rw [mature_of_mature run rounds hm] at h; cases h
    | false =>
      have hsafe := hs.force hrun
      rw [mature_of_suspended run rounds hm] at h
      cases hf : s.force run with
      | fault e =>
        -- the loop is said to go on, which an overflow does not
        rw [hf] at hsafe h
        obtain rfl : e = .overflow := hsafe
        cases h
      | value t before =>
        rw [hf] at hsafe h
        rw [Logged.value_bind, Logged.after_eq_fault_iff] at h
        obtain ⟨events, htrace⟩ := ih hsafe h
        refine ⟨before ++ events, ?_⟩
        rw [trace_of_suspended run rounds hm, hf, Logged.value_bind, htrace, Logged.map_value]
        rfl

end Within

/-- A stream that is forced to itself keeps the loops busy. -/
theorem collect_delay {f : κ} {a : α} (h : run f a = .value (delay f a) []) {limit : Limit}
    (hlimit : limit.isReached 0 = false) (rounds : Nat) :
    (delay f a).collect run rounds limit = .fault .unending := by
  suffices hloop : ∀ forced, Logged.iterate (collectRound run limit) rounds
      ⟨[], 0, forced, delay f a⟩ = .fault .unending from hloop 0
  induction rounds with
  | zero => exact fun _ => rfl
  | succ rounds ih =>
    intro forced
    have hround : collectRound run limit ⟨[], 0, forced, delay f a⟩ =
        .value (.inl ⟨[], 0, forced + 1, delay f a⟩) [] := by
      simp [collectRound, hlimit, force, h, Logged.pure_eq, Logged.after]
    rw [Logged.iterate_succ, hround, Logged.value_bind, Sum.elim_inl, ih, Logged.after_nil]

end LazyStream

/-! ## Goals -/

variable {p : Program} {g : Goal} {ρ : Scope} {s : State}

/-- A pure goal forces nothing when it is applied. -/
theorem Goal.Pure.apply_eq (hg : g.Pure) (mature mature' : Answers → Logged Answers) :
    g.apply p mature ρ s = g.apply p mature' ρ s := by
  induction g generalizing ρ s with
  | succeed | fail | eq | call => rfl
  | disj g h ihg ihh => rw [Goal.apply, Goal.apply, ihg hg.1, ihh hg.2]
  | conj g h ihg ihh =>
    have hh : h.apply p mature ρ = h.apply p mature' ρ := funext fun _ => ihh hg.2
    rw [Goal.apply, Goal.apply, ihg hg.1, hh]
  | fresh x g ih =>
    rw [Goal.apply, Goal.apply]
    exact congrArg (Logged.ofExcept s.fresh >>= ·) (funext fun _ => ih hg)
  | ifte | once => exact hg.elim

/-- A pure goal has the same answers for every budget. -/
theorem Closure.run_eq_run_one {c : Closure} (hc : c.goal.Pure) (n : Nat) :
    Closure.run p (n + 1) c = Closure.run p 1 c :=
  funext fun _ => hc.apply_eq _ _

/-- The goal without answers is forced to itself, whatever the budget, for ever. -/
theorem run_nevero {limit : Limit} (hlimit : limit.isReached 0 = false) (rounds : Nat) :
    (Goal.call .nevero []).run p rounds limit = .fault .unending := by
  cases rounds with
  | zero => rfl
  | succ n =>
    have hrun : ∀ s, Closure.run p (n + 1) ⟨.call .nevero [], []⟩ s =
        .value (.delay ⟨.call .nevero [], []⟩ s) [] := fun _ => rfl
    rw [Goal.run, Goal.answers, hrun, Logged.value_bind,
      LazyStream.collect_delay (hrun .empty) hlimit]
    rfl

/-- From an acyclic store a pure goal of a program of pure relations is applied in finite time, and so
is every stream forced that can be come by from its answers, whatever the relations call first in
their bodies: there is a stream, or an overflow, and the same one for every budget. So the first steps
of the search have an outcome, however many they are. A loop to the next answer that does not come to
its end forces in every round, and there are goals on which the loops do not. -/
theorem search_steps_end (hp : p.Pure) (hg : g.Pure) (hs : s.store.Acyclic) (n : Nat) :
    (g.answers p (n + 1) s).Ends ∧ g.answers p (n + 1) s = g.answers p 1 s ∧
      (∀ answers events t, g.answers p (n + 1) s = .value answers events →
        answers.Reaches (Closure.run p (n + 1)) t →
        (t.force (Closure.run p (n + 1))).Ends ∧
        t.force (Closure.run p (n + 1)) = t.force (Closure.run p 1) ∧
        ∀ rounds, t.mature (Closure.run p (n + 1)) rounds = .fault .unending →
          ∃ events, t.trace (Closure.run p (n + 1)) rounds =
            .value (List.replicate rounds .force) events) ∧
      (∀ k, (g.steps p (n + 1) s k).Ends) ∧
      ∀ rounds, (Goal.call .nevero []).run p rounds .all = .fault .unending := by
  have hrun : ∀ (c : Closure) (b : State), c.goal.Pure → b.store.Acyclic →
      (Closure.run p (n + 1) c b).Safe (LazyStream.Within (fun c => c.goal.Pure) fun b =>
        b.store.Acyclic) := fun c b hc hb => Closure.run_safe hp hc hb
  have hanswers := hrun ⟨g, []⟩ s hg hs
  refine ⟨hanswers.ends, congrFun (Closure.run_eq_run_one hg n) s, ?_, fun k => ?_,
    run_nevero rfl⟩
  · intro answers events t hvalue hreaches
    rw [Goal.answers] at hvalue
    rw [hvalue] at hanswers
    have ht := LazyStream.Within.reaches hrun hanswers hreaches
    exact ⟨(ht.force hrun).ends, ht.force_congr fun c hc => Closure.run_eq_run_one hc n,
      fun rounds => ht.trace_of_mature_unending hrun⟩
  · exact hanswers.bind fun answers hanswers => hanswers.trace_ends hrun k

/-- Where `odd` begins with a call of itself and then calls `even`, which calls `odd` first, forcing
the answers of `odd` before `alwayso` gives a longer stream, in which the same call of `odd` waits
again. What waits with it there can be forced in turn, and the search has any number of steps. -/
theorem search_steps_end_left_recursive :
    let n := Term.named "n"
    let odd := Definition.plain ["n"] (.conj (.call (.defined "odd") [n]) (.call (.defined "even") [n]))
    let even := Definition.plain ["n"] (.disj (.call (.defined "odd") [n]) (.eq n (.named "x")))
    let p : Program := [("odd", odd), ("even", even)]
    let g := Goal.conj (.call (.defined "odd") [.named "x"]) (.call .alwayso [])
    let s : State := ⟨Store.empty.push ⟨"x"⟩ (.pair (.named "y") .nil), 7⟩
    let ρ := Scope.ofArgs odd.params [.named "x"]
    let answers : Answers := .bind (.delay ⟨odd.body, ρ⟩ s) ⟨.call .alwayso [], []⟩
    let t : Answers := .bind (.delay ⟨odd.body, ρ⟩ s) ⟨.call (.defined "even") [n], ρ⟩
    p.Pure ∧ g.Pure ∧ s.store.Acyclic ∧ g.answers p 3 s = .value answers [] ∧
      answers.force (Closure.run p 3) = .value (.bind t ⟨.call .alwayso [], []⟩) [] ∧
      (t.force (Closure.run p 3)).Ends ∧ ∀ k, (g.steps p 3 s k).Ends := by
  intro n odd even p g s ρ answers t
  have hp : p.Pure := by
    intro d hd
    rcases List.mem_pair.1 hd with rfl | rfl
    · exact ⟨trivial, trivial⟩
    · exact ⟨trivial, trivial⟩
  have hg : g.Pure := ⟨trivial, trivial⟩
  have hs : s.store.Acyclic := Store.acyclic_empty.push rfl (by decide)
  have hanswers : g.answers p 3 s = .value answers [] := by decide +kernel
  have hforced : answers.force (Closure.run p 3) = .value (.bind t ⟨.call .alwayso [], []⟩) [] := by
    decide +kernel
  obtain ⟨-, -, hreached, hsteps, -⟩ := search_steps_end hp hg hs 2
  have ht := hreached answers [] t hanswers (.operand (.force .refl hforced))
  exact ⟨hp, hg, hs, hanswers, hforced, ht.1, hsteps⟩

end Relational
