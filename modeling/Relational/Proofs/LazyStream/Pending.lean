import Relational.Proofs.LazyStream.Steps

/-!
# What is pending in a stream

The elements of a suspended stream have not gone through all functions yet: the elements that a
`bind` waits with have its function still before them, and those of a nested `bind` have several.
`LazyStream.Pending` relates every element to the list of the functions that it has still to go
through. When each function keeps the relation, forcing keeps it (`Pending.force`), and so do the
loops that pull elements out of a stream (`Pending.mature`, `Pending.trace`, `Pending.collect`,
`Pending.take`): whatever element comes out is related to what was to be done behind the stream. And
where no function has a fault for what it is given, the stream has none (`Pending.faultless`).
-/

namespace Relational

variable {κ α β σ : Type}

namespace Logged

/-- A value has the property `Q`, and a fault the property `F`. -/
def Meets (F : Fault → Prop) (Q : α → Prop) : Logged α → Prop
  | value a _ => Q a
  | fault e => F e

variable {F : Fault → Prop} {Q : α → Prop} {R : β → Prop}

theorem Meets.bind {c : Logged α} {f : α → Logged β} (hc : c.Meets F Q)
    (hf : ∀ a, Q a → (f a).Meets F R) : (c >>= f).Meets F R := by
  cases c with
  | fault e => exact hc
  | value a before =>
    have hfa := hf a hc
    rw [value_bind]
    cases hv : f a with
    | fault e => rwa [hv] at hfa
    | value b events => rwa [hv] at hfa

theorem Meets.map {c : Logged α} {f : α → β} (hc : c.Meets F Q) (hf : ∀ a, Q a → R (f a)) :
    (f <$> c).Meets F R := by
  cases c with
  | fault e => exact hc
  | value a events =>
    rw [map_value]
    exact hf a hc

/-- A loop keeps what its rounds keep, and has a result as its last round does. -/
theorem Meets.iterate {step : σ → Logged (σ ⊕ β)} {I : σ → Prop} (hend : F .unending)
    (hstep : ∀ s, I s → (step s).Meets F (Sum.elim I R)) (n : Nat) {s : σ} (hs : I s) :
    (iterate step n s).Meets F R := by
  induction n generalizing s with
  | zero => exact hend
  | succ n ih =>
    rw [iterate_succ]
    refine (hstep s hs).bind fun next hnext => ?_
    cases next with
    | inl s => exact ih hnext
    | inr b => exact hnext

end Logged

namespace LazyStream

/-- Every element that the stream has or waits with is related to the functions that it has still to
go through, those of `todo` after those that the stream itself waits to apply. -/
def Pending (R : List κ → α → Prop) : LazyStream κ α → List κ → Prop
  | empty, _ => True
  | cons a d, todo => R todo a ∧ d.Pending R todo
  | delay f a, todo => R (f :: todo) a
  | swap s t, todo => s.Pending R todo ∧ t.Pending R todo
  | bind s f, todo => s.Pending R (f :: todo)

/-- What a function gives for a related element is related in turn. -/
def Keeps (F : Fault → Prop) (R : List κ → α → Prop) (f : κ) (g : α → Logged (LazyStream κ α)) :
    Prop :=
  ∀ todo a, R (f :: todo) a → (g a).Meets F (·.Pending R todo)

namespace Pending

variable {F : Fault → Prop} {R : List κ → α → Prop} {run : κ → α → Logged (LazyStream κ α)}
  {todo : List κ} {s t : LazyStream κ α} {f : κ}

theorem append (hs : s.Pending R todo) (ht : t.Pending R todo) : (s.append t).Pending R todo := by
  induction s using matureInduction with
  | empty => exact ht
  | cons a d ih =>
    rw [cons_append]
    exact ⟨hs.1, ih hs.2⟩
  | suspended s h =>
    rw [append_of_suspended h]
    exact ⟨ht, hs⟩

theorem appendMap {g : α → Logged (LazyStream κ α)} (hg : Keeps F R f g)
    (hs : s.Pending R (f :: todo)) : (s.appendMap g f).Meets F (·.Pending R todo) := by
  induction s using matureInduction with
  | empty => trivial
  | cons a d ih =>
    rw [appendMap_cons]
    refine (hg todo a hs.1).bind fun part hpart => ?_
    exact (ih hs.2).bind fun rest hrest => hpart.append hrest
  | suspended s h =>
    rw [appendMap_of_suspended g f h]
    exact hs

/-! ## Forcing -/

section

variable (hrun : ∀ f, Keeps F R f (run f))
include hrun

theorem force (hs : s.Pending R todo) : (s.force run).Meets F (·.Pending R todo) := by
  induction s generalizing todo with
  | empty => trivial
  | cons a d => exact hs
  | delay f a => exact hrun f todo a hs
  | swap t s _ ih => exact (ih hs.2).bind fun s hs' => hs.1.append hs'
  | bind s f ih => exact (ih hs).bind fun s hs' => hs'.appendMap (hrun f)

/-- The elements among the steps of a stream are related to what was to be done behind it. -/
theorem trace (k : Nat) (hs : s.Pending R todo) :
    (s.trace run k).Meets F fun steps => ∀ a, .emit a ∈ steps → R todo a := by
  have hskip : ∀ {step : Step α} {steps : List (Step α)}, (∀ a, .emit a ≠ step) →
      (∀ a, .emit a ∈ steps → R todo a) → ∀ a, .emit a ∈ step :: steps → R todo a :=
    fun hne hsteps a ha => hsteps a ((List.mem_cons.1 ha).resolve_left (hne a))
  induction k generalizing s with
  | zero =>
    rw [trace_zero]
    exact nofun
  | succ k ih =>
    induction s using matureInduction with
    | empty =>
      rw [trace_empty]
      exact hskip nofun nofun
    | cons b d =>
      rw [trace_cons]
      refine (ih hs.2).map fun steps hsteps => ?_
      intro a ha
      rcases List.mem_cons.1 ha with h | h
      · cases h
        exact hs.1
      · exact hsteps a h
    | suspended s h =>
      rw [trace_of_suspended run k h]
      refine (hs.force hrun).bind fun s hs => ?_
      exact (ih hs).map fun steps => hskip nofun

/-! ## Loops -/

variable (hend : F .unending) (rounds : Nat)
include hend

theorem mature (hs : s.Pending R todo) : (s.mature run rounds).Meets F (·.Pending R todo) := by
  refine .iterate hend (I := (·.Pending R todo)) (fun s hs => ?_) rounds hs
  rw [matureRound]
  split
  · exact hs
  · exact (hs.force hrun).map fun _ h => h

theorem next? (hs : s.Pending R todo) :
    (s.next? run rounds).Meets F fun found =>
      ∀ a d, found = some (a, d) → R todo a ∧ d.Pending R todo := by
  refine .iterate hend (I := (·.Pending R todo)) (fun s hs => ?_) rounds hs
  cases s with
  | empty => exact nofun
  | cons a d =>
    intro b e h
    cases h
    exact hs
  | delay | swap | bind => exact (hs.force hrun).map fun _ h => h

/-- The elements that are taken are related to what was to be done behind the stream. -/
theorem take (n : Nat) (hs : s.Pending R todo) :
    (s.take run rounds n).Meets F fun items => ∀ a ∈ items, R todo a := by
  induction n generalizing s with
  | zero =>
    rw [take_zero]
    exact nofun
  | succ n ih =>
    rw [take_succ]
    refine (hs.next? hrun hend rounds).bind fun found hfound => ?_
    match found with
    | none => exact nofun
    | some (a, d) =>
      have ⟨ha, hd⟩ := hfound a d rfl
      exact (ih hd).map fun items hitems => List.forall_mem_cons.2 ⟨ha, hitems⟩

/-- The elements that are collected are related to what was to be done behind the stream. -/
theorem collect (limit : Limit) (hs : s.Pending R todo) :
    (s.collect run rounds limit).Meets F fun found => ∀ a ∈ found.1, R todo a := by
  refine .iterate hend
    (I := fun c => (∀ a ∈ c.reversed, R todo a) ∧ c.rest.Pending R todo)
    (fun c ⟨hreversed, hrest⟩ => ?_) rounds ⟨nofun, hs⟩
  have hdone : ∀ a ∈ c.reversed.reverse, R todo a := fun a ha => hreversed a (List.mem_reverse.1 ha)
  rw [collectRound]
  split
  · exact hdone
  · obtain ⟨reversed, produced, forced, rest⟩ := c
    cases rest with
    | empty => exact hdone
    | cons a d => exact ⟨List.forall_mem_cons.2 ⟨hrest.1, hreversed⟩, hrest.2⟩
    | delay | swap | bind => exact (hrest.force hrun).bind fun s hs => ⟨hreversed, hs⟩

end

/-! ## Faults -/

/-- Where no function ends in a fault for an element that is related, no step of the stream does. -/
theorem faultless (hrun : ∀ f, Keeps (fun _ => False) R f (run f)) (hs : s.Pending R todo) :
    s.Faultless run := by
  intro k e hk
  have htrace := hs.trace hrun (k + 1)
  rwa [trace_eq_fault_iff.2 ⟨k, Nat.lt_succ_self k, hk⟩] at htrace

end Pending

end LazyStream

end Relational
