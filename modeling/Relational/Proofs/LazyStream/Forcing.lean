import Relational.Proofs.LazyStream.Budget

/-!
# Leading forcings

A stream can have to be forced several times before it is at its first element or at its end
(`LazyStream.ForcesTo`). `mature` does just this and no more (`ForcesTo.mature`). When every element
is mapped to a stream, the forcings before the first element come first, and behind them the stream
is what the streams of the elements that were come to are (`ForcesTo.trace_appendMap`): no forcing is
made twice, and nothing is lost, when mapping begins only after the stream has become mature. So the
soft cut over any stream commits as it should (`ForcesTo.exists_softCut`, `ForcesTo.trace_softCut`).
-/

namespace Relational

variable {α β κ : Type}

namespace Logged

@[simp] theorem toExcept_after (before : List Event) (c : Logged α) :
    (c.after before).toExcept = c.toExcept := by
  cases c <;> rfl

theorem toExcept_map (f : α → β) (c : Logged α) : (f <$> c).toExcept = f <$> c.toExcept := by
  cases c with
  | value a events => rw [map_value]; rfl
  | fault e => rfl

end Logged

namespace LazyStream

open Logged

variable {run : κ → α → Logged (LazyStream κ α)} {s t : LazyStream κ α} {n : Nat} {a : α}
  {events : List Event} {rounds : Nat}

/-- Forcing the first stream so many times gives the second one, and no element comes before. -/
inductive ForcesTo (run : κ → α → Logged (LazyStream κ α)) :
    LazyStream κ α → Nat → LazyStream κ α → Prop
  | refl {s : LazyStream κ α} : ForcesTo run s 0 s
  | force {s s' t : LazyStream κ α} {log : List Event} {n : Nat} (hs : s.isMature = false)
    (hf : s.force run = .value s' log) (h : ForcesTo run s' n t) : ForcesTo run s (n + 1) t

/-- Steps that begin with forcings have been made on the stream that these lead to. -/
theorem exists_forcesTo {k : Nat} {rest : List (Step α)}
    (h : s.trace run (n + k) = .value (List.replicate n .force ++ rest) events) :
    ∃ t log, ForcesTo run s n t ∧ t.trace run k = .value rest log := by
  induction n generalizing s events with
  | zero =>
    rw [Nat.zero_add] at h
    exact ⟨s, events, .refl, h⟩
  | succ n ih =>
    rw [Nat.succ_add, List.replicate_succ, List.cons_append] at h
    induction s using matureInduction with
    | empty => rw [trace_empty] at h; cases h
    | cons a d =>
      rw [trace_cons] at h
      obtain ⟨_, _, -, hsteps⟩ := map_eq_value_iff.1 ⟨events, h⟩
      cases hsteps
    | suspended s hs =>
      rw [trace_of_suspended run _ hs] at h
      obtain ⟨s', _, _, hf, htrace⟩ := bind_eq_value_iff.1 ⟨events, h⟩
      obtain ⟨_, _, hsteps, heq⟩ := map_eq_value_iff.1 ⟨_, htrace⟩
      cases heq
      obtain ⟨t, log, ht, hrest⟩ := ih hsteps
      exact ⟨t, log, ht.force hs hf, hrest⟩

/-- The first step of a suspended stream is that it is forced. -/
theorem eq_force_of_trace {steps : List (Step α)} (hs : s.isMature = false)
    (h : s.trace run 1 = .value steps events) : steps = [.force] := by
  rw [trace_of_suspended run 0 hs] at h
  obtain ⟨s', _, _, -, htrace⟩ := bind_eq_value_iff.1 ⟨events, h⟩
  rw [trace_zero, pure_eq, map_value] at htrace
  cases htrace
  rfl

theorem eq_cons_of_trace (h : s.trace run 1 = .value [.emit a] events) : ∃ d, s = cons a d := by
  induction s using matureInduction with
  | empty => rw [trace_empty] at h; cases h
  | cons b d =>
    rw [trace_cons, trace_zero] at h
    cases h
    exact ⟨d, rfl⟩
  | suspended s hs => cases eq_force_of_trace hs h

theorem eq_empty_of_trace (h : s.trace run 1 = .value [.stop] events) : s = empty := by
  induction s using matureInduction with
  | empty => rfl
  | cons b d => rw [trace_cons, trace_zero] at h; cases h
  | suspended s hs => cases eq_force_of_trace hs h

namespace ForcesTo

theorem mono {run' : κ → α → Logged (LazyStream κ α)}
    (hrun : ∀ f a, (run f a).Approximates (run' f a)) (h : ForcesTo run s n t) :
    ForcesTo run' s n t := by
  induction h with
  | refl => exact .refl
  | force hs hf _ ih => exact ih.force hs ((force_approximates hrun _).eq_value hf)

/-- The loop to the first element or the end makes the forcings before it and no others. -/
theorem mature (h : ForcesTo run s n t) (ht : t.isMature = true) (hrounds : n < rounds) :
    ∃ log, s.mature run rounds = .value t log := by
  obtain ⟨rounds, rfl⟩ : ∃ k, rounds = k + 1 := ⟨rounds - 1, by omega⟩
  induction h generalizing rounds with
  | refl => exact ⟨[], mature_of_mature run rounds ht⟩
  | force hs hf h ih =>
    obtain ⟨k, rfl⟩ : ∃ k, rounds = k + 1 := ⟨rounds - 1, by omega⟩
    obtain ⟨log, hlog⟩ := ih ht k (by omega)
    rw [mature_of_suspended run (k + 1) hs, hf, value_bind, hlog]
    exact ⟨_, rfl⟩

/-- When the elements are mapped to streams, the forcings before them come first. -/
theorem trace_appendMap (h : ForcesTo run s n t) (f : κ) (k : Nat) :
    (s.appendMap (run f) f >>= fun b => b.trace run (n + k)).toExcept =
      (List.replicate n .force ++ ·) <$>
        (t.appendMap (run f) f >>= fun b => b.trace run k).toExcept := by
  induction h with
  | refl => simp
  | @force s s' t log n hs hf h ih =>
    have hforce : (bind s f).force run = (s'.appendMap (run f) f).after log := by
      rw [LazyStream.force, hf, value_bind]
    rw [appendMap_of_suspended _ _ hs, pure_bind, Nat.succ_add, trace_of_suspended run (n + k) rfl,
      hforce, after_bind, toExcept_after, ← map_bind, toExcept_map, ih, List.replicate_succ,
      ← comp_map]
    rfl

end ForcesTo

/-! ## The soft cut -/

/-- Commits to a stream, each of its elements mapped to a stream by the function of code `f`, if there is
an element in it, and to another one if there is none. -/
def softCut (run : κ → α → Logged (LazyStream κ α)) (rounds : Nat) (s : LazyStream κ α)
    (yes : α → Logged (LazyStream κ α)) (f : κ) (no : Logged (LazyStream κ α)) :
    Logged (LazyStream κ α) :=
  s.mature run rounds >>= fun s => if s.isEmpty then no else s.appendMap yes f

/-- The first element alone of a stream that begins with an element. -/
def onlyFirst : LazyStream κ α → LazyStream κ α
  | cons a _ => singleton a
  | _ => empty

/-- The stream of the first element alone, if there is one. -/
def once (run : κ → α → Logged (LazyStream κ α)) (rounds : Nat) (s : LazyStream κ α) :
    Logged (LazyStream κ α) :=
  s.mature run rounds >>= fun s => pure s.onlyFirst

namespace ForcesTo

variable {d : LazyStream κ α} {f : κ} {yes : α → Logged (LazyStream κ α)}
  {no : Logged (LazyStream κ α)}

/-- Where the stream ends without an element, the soft cut commits to the other one. -/
theorem exists_softCut (h : ForcesTo run s n empty) (hrounds : n < rounds) :
    ∃ log, s.softCut run rounds yes f no = no.after log := by
  obtain ⟨log, hmature⟩ := h.mature rfl hrounds
  refine ⟨log, ?_⟩
  rw [softCut, hmature, value_bind]
  rfl

/-- Where the stream has an element, the soft cut has the steps of the stream with its elements mapped to
streams behind the forcings before that element, whatever functions the suspensions call and whatever
the other stream is. A smaller budget may do for finding the element. -/
theorem trace_softCut {run' : κ → α → Logged (LazyStream κ α)}
    (hrun : ∀ f a, (run f a).Approximates (run' f a)) (h : ForcesTo run s n (cons a d))
    (hrounds : n < rounds) (k : Nat) :
    (s.appendMap (run' f) f >>= fun b => b.trace run' (n + k)).toExcept =
      (List.replicate n .force ++ ·) <$>
        (s.softCut run rounds (run' f) f no >>= fun b => b.trace run' k).toExcept := by
  obtain ⟨log, hmature⟩ := h.mature rfl hrounds
  have hcut : s.softCut run rounds (run' f) f no = ((cons a d).appendMap (run' f) f).after log := by
    rw [softCut, hmature, value_bind]
    rfl
  rw [hcut, after_bind, toExcept_after]
  exact (h.mono hrun).trace_appendMap f k

theorem exists_once_cons (h : ForcesTo run s n (cons a d)) (hrounds : n < rounds) :
    ∃ log, s.once run rounds = .value (singleton a) log := by
  obtain ⟨log, hmature⟩ := h.mature rfl hrounds
  rw [once, hmature]
  exact ⟨_, rfl⟩

theorem exists_once_empty (h : ForcesTo run s n empty) (hrounds : n < rounds) :
    ∃ log, s.once run rounds = .value empty log := by
  obtain ⟨log, hmature⟩ := h.mature rfl hrounds
  rw [once, hmature]
  exact ⟨_, rfl⟩

end ForcesTo

/-! ## One stream alone -/

/-- A stream before nothing has the same steps. -/
theorem trace_append_empty (k : Nat) (s : LazyStream κ α) :
    (s.append empty).trace run k = s.trace run k := by
  induction k generalizing s with
  | zero => rw [trace_zero, trace_zero]
  | succ k ih =>
    induction s using matureInduction with
    | empty => rfl
    | cons a d => rw [cons_append, trace_cons, trace_cons, ih]
    | suspended s hs =>
      -- the operands change places, and nothing comes before what has been forced
      have hforce : (swap empty s).force run = s.force run := by
        rw [LazyStream.force]
        exact bind_pure (s.force run)
      rw [append_of_suspended hs, trace_of_suspended run k rfl, trace_of_suspended run k hs, hforce]

theorem appendMap_singleton (g : α → Logged (LazyStream κ α)) (f : κ) (a : α) :
    (singleton a).appendMap g f = (·.append empty) <$> g a := by
  rw [singleton, appendMap_cons, appendMap_empty, ← bind_pure_comp]
  rfl

end LazyStream

end Relational
