import Relational.LazyStream.Basic

/-!
# Pulling elements

Loops that force suspensions one after the other: to the next element, to some number of elements, to
the end, up to a limit, or step by step. Each loop is given how many rounds it may go; where that is
not enough, it ends in `Fault.unending`. The equations after a loop say what it does with a stream at
its end, at an element, and suspended.
-/

namespace Relational.LazyStream

variable {κ α : Type} (run : κ → α → Logged (LazyStream κ α)) (rounds : Nat)

/-! ## To the next element -/

/-- A round of `mature`. -/
def matureRound (s : LazyStream κ α) : Logged (LazyStream κ α ⊕ LazyStream κ α) :=
  if s.isMature then pure (.inr s) else Sum.inl <$> s.force run

/-- Forces suspensions until the stream is at an element or at its end. -/
def mature (s : LazyStream κ α) : Logged (LazyStream κ α) :=
  Logged.iterate (matureRound run) rounds s

theorem mature_of_mature {s : LazyStream κ α} (h : s.isMature = true) :
    s.mature run (rounds + 1) = pure s := by
  simp [mature, Logged.iterate_succ, matureRound, h]

theorem mature_of_suspended {s : LazyStream κ α} (h : s.isMature = false) :
    s.mature run (rounds + 1) = s.force run >>= mature run rounds := by
  rw [mature, Logged.iterate_succ, matureRound, h]
  simp only [Bool.false_eq_true, if_false, bind_map_left, Sum.elim_inl]
  rfl

/-- A round of `next?`. -/
def nextRound : LazyStream κ α → Logged (LazyStream κ α ⊕ Option (α × LazyStream κ α))
  | empty => pure (.inr none)
  | cons a d => pure (.inr (some (a, d)))
  | s => Sum.inl <$> s.force run

/-- The next element and the stream behind it, unless the stream ends. -/
def next? (s : LazyStream κ α) : Logged (Option (α × LazyStream κ α)) :=
  Logged.iterate (nextRound run) rounds s

theorem next?_empty : next? run (rounds + 1) (empty : LazyStream κ α) = pure none := by
  simp [next?, Logged.iterate_succ, nextRound]

theorem next?_cons (a : α) (d : LazyStream κ α) :
    next? run (rounds + 1) (cons a d) = pure (some (a, d)) := by
  simp [next?, Logged.iterate_succ, nextRound]

theorem next?_of_suspended {s : LazyStream κ α} (h : s.isMature = false) :
    s.next? run (rounds + 1) = s.force run >>= next? run rounds := by
  rw [next?, Logged.iterate_succ]
  cases s with
  | empty | cons => cases h
  | _ => simp only [nextRound, bind_map_left, Sum.elim_inl]; rfl

/-! ## To a number of elements -/

/-- A round of `take`: one element, put before those that are there, the last one first. -/
def takeRound : List α × Nat × LazyStream κ α →
    Logged ((List α × Nat × LazyStream κ α) ⊕ List α)
  | (reversed, 0, _) => pure (.inr reversed.reverse)
  | (reversed, n + 1, s) => do
    match ← next? run rounds s with
    | none => pure (.inr reversed.reverse)
    | some (a, d) => pure (.inl (a :: reversed, n, d))

/-- The next `n` elements, or as many as there are. Behind the last of them nothing is forced. Each
element may be so many rounds away. -/
def take (n : Nat) (s : LazyStream κ α) : Logged (List α) :=
  Logged.iterate (takeRound run rounds) (n + 1) ([], n, s)

/-- A round of `toList`: one element, put before those that are there, the last one first. -/
def toListRound : List α × LazyStream κ α → Logged ((List α × LazyStream κ α) ⊕ List α)
  | (reversed, s) => do
    match ← next? run rounds s with
    | none => pure (.inr reversed.reverse)
    | some (a, d) => pure (.inl (a :: reversed, d))

/-- All elements. There may be as many as there are rounds, less one for the end, and each may be so
many rounds away. -/
def toList (s : LazyStream κ α) : Logged (List α) :=
  Logged.iterate (toListRound run rounds) rounds ([], s)

theorem take_zero (s : LazyStream κ α) : s.take run rounds 0 = pure [] := by
  simp [take, Logged.iterate_succ, takeRound]

theorem takeRound_onto (n : Nat) (reversed : List α) (s : LazyStream κ α) :
    Logged.iterate (takeRound run rounds) (n + 1) (reversed, n, s) =
      (reversed.reverse ++ ·) <$> s.take run rounds n := by
  induction n generalizing reversed s with
  | zero => simp [take, Logged.iterate_succ, takeRound]
  | succ n ih =>
    simp only [take, Logged.iterate_succ _ (n + 1), takeRound, bind_assoc, map_bind]
    congr 1
    funext found
    match found with
    | none => simp
    | some (a, d) => simp only [pure_bind, Sum.elim_inl, ih]; simp

theorem take_succ (n : Nat) (s : LazyStream κ α) :
    s.take run rounds (n + 1) = s.next? run rounds >>= fun
      | none => pure []
      | some (a, d) => (a :: ·) <$> d.take run rounds n := by
  rw [take, Logged.iterate_succ, takeRound, bind_assoc]
  congr 1
  funext found
  match found with
  | none => simp
  | some (a, d) => simp only [pure_bind, Sum.elim_inl, takeRound_onto]; rfl

/-! ## Up to a limit -/

/-- How far `collect` has come. -/
structure Collection (κ α : Type) where
  /-- The elements, the last one first. -/
  reversed : List α
  /-- How many elements there are. -/
  produced : Nat
  /-- How many suspensions have been forced. -/
  forced : Nat
  rest : LazyStream κ α

/-- A round of `collect`. -/
def collectRound (limit : Limit) (c : Collection κ α) :
    Logged (Collection κ α ⊕ List α × Nat) :=
  if limit.isReached c.produced then pure (.inr (c.reversed.reverse, c.forced))
  else match c.rest with
    | empty => pure (.inr (c.reversed.reverse, c.forced))
    | cons a d => pure (.inl ⟨a :: c.reversed, c.produced + 1, c.forced, d⟩)
    | s => do
      let s ← s.force run
      pure (.inl { c with forced := c.forced + 1, rest := s })

/-- The elements up to a limit, and how many suspensions had to be forced for them. Once the limit is
reached nothing is forced. -/
def collect (limit : Limit) (s : LazyStream κ α) : Logged (List α × Nat) :=
  Logged.iterate (collectRound run limit) rounds ⟨[], 0, 0, s⟩

/-! ## Step by step -/

/-- What happens when a stream is pulled once. -/
inductive Step (α : Type) where
  /-- It was suspended, and is forced. -/
  | force
  /-- It was at an element, and goes on behind it. -/
  | emit (a : α)
  /-- It was at its end. -/
  | stop
deriving DecidableEq

/-- A round of `trace`: one step, put before those that are there, the last one first. -/
def traceRound : List (Step α) × Nat × LazyStream κ α →
    Logged ((List (Step α) × Nat × LazyStream κ α) ⊕ List (Step α))
  | (reversed, 0, _) => pure (.inr reversed.reverse)
  | (reversed, k + 1, s) =>
    match s with
    | empty => pure (.inr (.stop :: reversed).reverse)
    | cons a d => pure (.inl (.emit a :: reversed, k, d))
    | s => do
      let s ← s.force run
      pure (.inl (.force :: reversed, k, s))

/-- The first `k` steps of a stream, or as many as there are. -/
def trace (k : Nat) (s : LazyStream κ α) : Logged (List (Step α)) :=
  Logged.iterate (traceRound run) (k + 1) ([], k, s)

theorem traceRound_onto (k : Nat) (reversed : List (Step α)) (s : LazyStream κ α) :
    Logged.iterate (traceRound run) (k + 1) (reversed, k, s) =
      (reversed.reverse ++ ·) <$> s.trace run k := by
  induction k generalizing reversed s with
  | zero => simp [trace, Logged.iterate_succ, traceRound]
  | succ k ih =>
    simp only [trace, Logged.iterate_succ _ (k + 1)]
    cases s with
    | empty => simp [traceRound]
    | cons a d => simp only [traceRound, pure_bind, Sum.elim_inl, ih]; simp
    | _ => simp only [traceRound, bind_assoc, pure_bind, Sum.elim_inl, ih, map_bind]; simp

theorem trace_zero (s : LazyStream κ α) : s.trace run 0 = pure [] := by
  simp [trace, Logged.iterate_succ, traceRound]

theorem trace_empty (k : Nat) : trace run (k + 1) (empty : LazyStream κ α) = pure [.stop] := by
  simp [trace, Logged.iterate_succ _ (k + 1), traceRound]

theorem trace_cons (k : Nat) (a : α) (d : LazyStream κ α) :
    trace run (k + 1) (cons a d) = (.emit a :: ·) <$> d.trace run k := by
  rw [trace, Logged.iterate_succ, traceRound, pure_bind, Sum.elim_inl, traceRound_onto]
  rfl

theorem trace_of_suspended (k : Nat) {s : LazyStream κ α} (h : s.isMature = false) :
    s.trace run (k + 1) = s.force run >>= fun s => (.force :: ·) <$> s.trace run k := by
  rw [trace, Logged.iterate_succ]
  cases s with
  | empty | cons => cases h
  | _ => simp only [traceRound, bind_assoc, pure_bind, Sum.elim_inl, traceRound_onto]; rfl

end Relational.LazyStream
