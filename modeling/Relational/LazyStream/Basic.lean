import Relational.Logged

/-!
# Streams

A stream is a sequence, possibly without end, of which only a beginning has been computed: its
*mature* part. Behind that it either ends or is suspended, and a suspension is the work that is left
to do, written down: a call of a function, or an operation whose operand is suspended. Functions from
elements to streams are named by codes of a type `κ`, and `run : κ → α → Logged (LazyStream κ α)` says
what a code stands for. `LazyStream.force` does the work of one suspension.

`append` and `appendMap` are the two ways in which the search combines streams. Both go through the
mature part at once and leave the suspension to be forced, and `append` lets its operands take turns:
each time the first one is suspended, the second one comes first in what is left to do. So no operand
keeps the elements of the other from being reached.
-/

namespace Relational

/-- A lazy sequence of elements of `α`, in which functions are named by codes of `κ`. -/
inductive LazyStream (κ α : Type) where
  | empty
  | cons (head : α) (tail : LazyStream κ α)
  /-- Suspended: the stream that the function gives for an element. -/
  | delay (f : κ) (a : α)
  /-- Suspended: the second stream, which is suspended itself, is forced and appended to the first
  one. -/
  | swap (first suspended : LazyStream κ α)
  /-- Suspended: the stream, which is suspended itself, is forced, and the function is applied to its
  elements. -/
  | bind (suspended : LazyStream κ α) (f : κ)
deriving DecidableEq

namespace LazyStream

variable {κ α β : Type}

/-- The stream of one element. -/
def singleton (a : α) : LazyStream κ α := cons a empty

/-- The elements of a list, of which the last is given first, before a stream. -/
def prependReversed (items : List α) (s : LazyStream κ α) : LazyStream κ α :=
  items.foldl (fun rest a => cons a rest) s

/-- The stream of the elements of a list. -/
def ofList (items : List α) : LazyStream κ α := items.foldr cons empty

/-- The stream is at its end. -/
def isEmpty : LazyStream κ α → Bool
  | empty => true
  | _ => false

/-- The stream is at an element or at its end. -/
def isMature : LazyStream κ α → Bool
  | empty | cons .. => true
  | _ => false

/-- How many elements there are, unless a suspension comes before the end. -/
def length? : LazyStream κ α → Option Nat := go 0
where
  go (n : Nat) : LazyStream κ α → Option Nat
    | empty => some n
    | cons _ d => go (n + 1) d
    | _ => none

/-- Equality as far as it shows: both streams are mature to their end and have the same elements. A
suspended stream equals none, not even itself. -/
protected def beq [DecidableEq α] : LazyStream κ α → LazyStream κ α → Bool
  | empty, empty => true
  | cons a d, cons b e => decide (a = b) && d.beq e
  | _, _ => false

instance [DecidableEq α] : BEq (LazyStream κ α) := ⟨LazyStream.beq⟩

/-! ## Appending -/

/-- The items, of which the last is given first, before one stream followed by another, in turns. -/
def appendOnto (items : List α) : LazyStream κ α → LazyStream κ α → LazyStream κ α
  | empty, t => prependReversed items t
  | cons a d, t => appendOnto (a :: items) d t
  | s, t => prependReversed items (swap t s)

/-- One stream followed by another, in turns: where the first one is suspended, the second one goes
on. -/
def append (s t : LazyStream κ α) : LazyStream κ α := appendOnto [] s t

theorem appendOnto_eq (items : List α) (s t : LazyStream κ α) :
    appendOnto items s t = prependReversed items (s.append t) := by
  induction s generalizing items with
  | cons a d ih => simp only [append, appendOnto] at *; rw [ih, ih [a]]; rfl
  | _ => rfl

@[simp] theorem empty_append (t : LazyStream κ α) : empty.append t = t := rfl

@[simp] theorem cons_append (a : α) (d t : LazyStream κ α) :
    (cons a d).append t = cons a (d.append t) := by
  rw [append, appendOnto, appendOnto_eq]; rfl

theorem append_of_suspended {s : LazyStream κ α} (h : s.isMature = false) (t : LazyStream κ α) :
    s.append t = swap t s := by
  cases s <;> first | rfl | cases h

/-! ## Mapping to streams -/

/-- The streams in the list, of which the last is given first, one appended to the other before a
stream. -/
def appendReversed (parts : List (LazyStream κ α)) (s : LazyStream κ α) : LazyStream κ α :=
  parts.foldl (fun rest part => part.append rest) s

/-- The streams in the list, of which the last is given first, and behind them those that `g` gives
for the elements of a stream. `reversed` are the events logged so far, the last one first. -/
def appendMapOnto (g : α → Logged (LazyStream κ α)) (f : κ) (parts : List (LazyStream κ α))
    (reversed : List Event) : LazyStream κ α → Logged (LazyStream κ α)
  | empty => .value (appendReversed parts empty) reversed.reverse
  | cons a d =>
    match g a with
    | .value part events => appendMapOnto g f (part :: parts) (events.reverseAux reversed) d
    | .fault e => .fault e
  | s => .value (appendReversed parts (bind s f)) reversed.reverse

/-- The streams that `g` gives for the elements, one appended to the other. The elements behind a
suspension are left to the function of code `f`. -/
def appendMap (g : α → Logged (LazyStream κ α)) (f : κ) (s : LazyStream κ α) : Logged (LazyStream κ α) :=
  appendMapOnto g f [] [] s

theorem appendMapOnto_eq (g : α → Logged (LazyStream κ α)) (f : κ) (parts : List (LazyStream κ α))
    (reversed : List Event) (s : LazyStream κ α) :
    appendMapOnto g f parts reversed s =
      (appendReversed parts <$> s.appendMap g f).after reversed.reverse := by
  induction s generalizing parts reversed with
  | cons a d ih =>
    simp only [appendMap, appendMapOnto]
    match g a with
    | .fault e => rfl
    | .value part events =>
      simp only [ih (part :: parts), ih [part]]
      cases appendMap g f d <;> simp [Logged.after, Functor.map, Logged.bind, appendReversed]
  | _ => simp [appendMap, appendMapOnto, Functor.map, Logged.bind, Logged.after, appendReversed]

theorem appendMap_empty (g : α → Logged (LazyStream κ α)) (f : κ) :
    empty.appendMap g f = pure empty := rfl

theorem appendMap_cons (g : α → Logged (LazyStream κ α)) (f : κ) (a : α) (d : LazyStream κ α) :
    (cons a d).appendMap g f =
      g a >>= fun part => d.appendMap g f >>= fun rest => pure (part.append rest) := by
  rw [appendMap, appendMapOnto]
  match g a with
  | .fault e => rfl
  | .value part events =>
    simp only [appendMapOnto_eq]
    cases appendMap g f d <;> simp [Logged.after, Functor.map, Logged.bind, appendReversed]

theorem appendMap_of_suspended (g : α → Logged (LazyStream κ α)) (f : κ) {s : LazyStream κ α}
    (h : s.isMature = false) : s.appendMap g f = pure (bind s f) := by
  cases s <;> first | rfl | cases h

/-- The stream with `g` applied to every element. The elements behind a suspension are left to the
function of code `f`, which has to give the stream of the one element `g a`. -/
def map (g : α → α) (f : κ) : LazyStream κ α → LazyStream κ α := go []
where
  go (items : List α) : LazyStream κ α → LazyStream κ α
    | empty => prependReversed items empty
    | cons a d => go (g a :: items) d
    | s => prependReversed items (bind s f)

/-! ## Forcing -/

/-- Does the work of the suspension that a stream is; a mature stream stays as it is. -/
def force (run : κ → α → Logged (LazyStream κ α)) : LazyStream κ α → Logged (LazyStream κ α)
  | delay f a => run f a
  | swap t s => do
    let s ← s.force run
    pure (t.append s)
  | bind s f => do
    let s ← s.force run
    s.appendMap (run f) f
  | s => pure s

end LazyStream

end Relational
