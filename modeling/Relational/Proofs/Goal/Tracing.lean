import Relational.Proofs.Goal.Simulation

/-!
# Traced relations

A traced relation logs its applications, with the arguments as they are shown in the state in which it
is applied; a plain one does the same work and logs nothing. Which relations of a program are traced
(`Program.mute`) therefore shows in the log alone: from a state with an acyclic store, in which all
arguments can be shown, the two ways to apply a relation give the same stream
(`Definition.apply_muted`), and so the searches with the one and the other run side by side
(`Closure.run_mute`). The main statement is `muted_search_agrees`.
-/

namespace Relational

open LazyStream

/-- The relation that means the same and of which applications are not logged. -/
def Definition.mute (d : Definition) : Definition := { d with traced := none }

namespace Program

/-- The program in which the relations of the chosen names are plain, and all others as they were. -/
def mute (p : Program) (chosen : String → Bool) : Program :=
  p.map fun (name, d) => (name, if chosen name then d.mute else d)

/-- The applications of a chosen relation are logged under this name. -/
def Mutes (p : Program) (chosen : String → Bool) (name : String) : Prop :=
  ∃ d ∈ p, chosen d.1 = true ∧ d.2.traced = some name

variable {p : Program} {chosen : String → Bool}

/-- A relation means the same, and may have become plain if it has been chosen. -/
theorem definition_mute (p : Program) (chosen : String → Bool) (r : RelName) :
    (p.mute chosen).definition r = p.definition r ∨
      (p.mute chosen).definition r = (p.definition r).mute ∧
        ∀ name, (p.definition r).traced = some name → p.Mutes chosen name := by
  cases r with
  | defined name =>
    simp only [definition]
    induction p with
    | nil => exact .inl rfl
    | cons d p ih =>
      obtain ⟨name', d⟩ := d
      rw [mute, List.map_cons, List.lookup_cons, List.lookup_cons]
      cases name == name' with
      | true =>
        cases hchosen : chosen name' with
        | true => exact .inr ⟨rfl, fun shown hd => ⟨(name', d), by simp, hchosen, hd⟩⟩
        | false => exact .inl rfl
      | false =>
        rcases ih with hdefinition | ⟨hdefinition, hmutes⟩
        · exact .inl hdefinition
        · refine .inr ⟨hdefinition, fun shown hd => ?_⟩
          obtain ⟨e, he, hchosen⟩ := hmutes shown hd
          exact ⟨e, List.mem_cons_of_mem _ he, hchosen⟩
  | _ => exact .inl rfl

end Program

variable {p : Program} {chosen : String → Bool} {g : Goal} {s b : State}

/-- A relation gives the same stream whether its applications are logged or not. -/
theorem Definition.apply_muted {names : String → Prop} {d : Definition} (hs : s.store.Acyclic)
    (hd : ∀ name, d.traced = some name → names name) (args : List Term) :
    (d.apply args s).Muted names (d.mute.apply args s) := by
  obtain ⟨shown, hshown⟩ := s.exists_reifyArgs hs d.params args
  rw [Definition.apply, Definition.apply, hshown]
  cases htraced : d.traced with
  | none => exact .refl _
  | some name => exact .value _ (.drop (hd name htraced) .nil)

/-- What is suspended gives the same stream whether applications are logged or not. -/
theorem Closure.run_mute (hs : s.store.Acyclic) (rounds : Nat) (c : Closure) (todo : List Closure)
    (b : State) (hb : g.Visits p s (c :: todo) b) :
    (Closure.run p rounds c b).Muted (p.Mutes chosen) (Closure.run (p.mute chosen) rounds c b) := by
  rw [← runWith_fresh (p := p.mute chosen)]
  refine run_muted hs (fun _ _ _ => rfl) (fun r args b hb => ?_) rounds c todo b hb
  rcases p.definition_mute chosen r with h | ⟨h, hmutes⟩
  · rw [h]
    exact .refl _
  · rw [h]
    exact Definition.apply_muted hb hmutes args

/-! ## The main statement -/

/-- Whichever of the traced relations of a program become plain, the search goes through the same steps
from every state with an acyclic store, as many of them as are made and whatever the goal is: it forces,
emits the same states and ends, or faults, at the same steps. A run has the same states up to every
limit, and reports that it has forced as often. The log is the same but for applications of the
relations that have become plain. -/
theorem muted_search_agrees (p : Program) (chosen : String → Bool) (g : Goal) (rounds : Nat)
    (hs : s.store.Acyclic) :
    (∀ k, (g.steps p rounds s k).toExcept = (g.steps (p.mute chosen) rounds s k).toExcept ∧
      (g.steps p rounds s k).Muted (p.Mutes chosen) (g.steps (p.mute chosen) rounds s k)) ∧
    ∀ limit, (g.run p rounds limit).toExcept = (g.run (p.mute chosen) rounds limit).toExcept ∧
      (g.run p rounds limit).Muted (p.Mutes chosen) (g.run (p.mute chosen) rounds limit) := by
  have hanswers : ∀ {s : State}, s.store.Acyclic →
      (g.answers p rounds s).Muted (p.Mutes chosen) (g.answers (p.mute chosen) rounds s) :=
    fun hs => Closure.run_mute hs rounds ⟨g, []⟩ [] _ ⟨[], .refl⟩
  have hsteps : ∀ k, (g.steps p rounds s k).Muted (p.Mutes chosen)
      (g.steps (p.mute chosen) rounds s k) := fun k =>
    (hanswers hs).bind (Goal.answers_meets hs rounds) fun answers h =>
      trace_muted (Goal.run_keeps hs rounds) (Closure.run_mute hs rounds) k h
  have hrun : ∀ limit, (g.run p rounds limit).Muted (p.Mutes chosen)
      (g.run (p.mute chosen) rounds limit) := by
    intro limit
    have hempty : State.empty.store.Acyclic := Store.acyclic_empty
    refine (hanswers hempty).bind (Goal.answers_meets hempty rounds) fun answers h => ?_
    refine (collect_muted (Goal.run_keeps hempty rounds) (Closure.run_mute hempty rounds) rounds limit
      h).bind (F := fun _ => True) (Q := fun _ => True) ?_ fun found _ => .refl _
    cases answers.collect (Closure.run p rounds) rounds limit <;> trivial
  exact ⟨fun k => ⟨(hsteps k).toExcept_eq, hsteps k⟩, fun limit => ⟨(hrun limit).toExcept_eq, hrun limit⟩⟩

/-- A relation that calls itself behind its first answer is applied twice before `once` cuts it, and the
argument, which is bound to the open variable `z`, is shown both times. As a plain relation it emits the
same state, and the log has nothing. -/
theorem muted_search_agrees_once :
    let body : Goal := .disj (.eq (.named "x") (.sym "a")) (.call (.defined "again") [.named "x"])
    let p : Program := [("again", ⟨[⟨"x"⟩], body, some "again"⟩)]
    let g : Goal := .once (.call (.defined "again") [.named "y"])
    let s : State := ⟨Store.empty.push ⟨"y"⟩ (.named "z"), 0⟩
    let b : State := ⟨s.store.push ⟨"z"⟩ (.sym "a"), 0⟩
    let shown : Event := .applied "again" [(⟨"x"⟩, .sym "_.0")]
    s.store.Acyclic ∧ g.steps p 3 s 2 = .value [.emit b, .stop] [shown, shown] ∧
      g.steps (p.mute fun _ => true) 3 s 2 = .value [.emit b, .stop] [] ∧
      Event.Muted (p.Mutes fun _ => true) [shown, shown] [] := by
  intro body p g s b shown
  have hs : s.store.Acyclic := Store.acyclic_empty.push rfl (by decide)
  have htraced : g.steps p 3 s 2 = .value [.emit b, .stop] [shown, shown] := by decide +kernel
  have hplain : g.steps (p.mute fun _ => true) 3 s 2 = .value [.emit b, .stop] [] := by decide +kernel
  have hmuted := ((muted_search_agrees p (fun _ => true) g 3 hs).1 2).2
  rw [htraced, hplain] at hmuted
  cases hmuted with
  | value _ hlog => exact ⟨hs, htraced, hplain, hlog⟩

end Relational
