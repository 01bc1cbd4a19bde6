import Relational.Term.Reader

/-!
# Reading by descent

`Term.descend` reads a text character by character and has no lexemes: it looks at what stands at a
place of the text (`Cursor`), and reads a list within a list by a call within a call. A call goes on
where the one before it has stopped, so the recursion is on how many calls there may be within each
other, and there is no result where these do not suffice. `Term.descend_eq` says that two calls for
each character and one more always do, and that the result is that of `Term.parse`.
-/

namespace Relational

open Text (isBlank)

/-- A place in a text. -/
structure Cursor where
  /-- How many bytes of the text stand before the place. -/
  offset : Nat
  /-- The characters behind the place. -/
  rest : List Char

namespace Cursor

/-- The place before the first character. -/
def start (text : String) : Cursor := ⟨0, text.toList⟩

/-- The character at the place. -/
def peek (r : Cursor) : Option Char := r.rest.head?

/-- The place behind that character. -/
def bump (r : Cursor) : Cursor :=
  match r.rest with
  | [] => r
  | c :: rest => ⟨r.offset + c.utf8Size, rest⟩

/-- The first characters of a text for which the condition holds, and the place behind them. -/
def spanFrom (cond : Char → Bool) (offset : Nat) : List Char → List Char × Cursor
  | [] => ([], ⟨offset, []⟩)
  | c :: rest =>
    if cond c then
      let (run, r) := spanFrom cond (offset + c.utf8Size) rest
      (c :: run, r)
    else ([], ⟨offset, c :: rest⟩)

/-- The place behind the blanks. -/
def skipBlanks (r : Cursor) : Cursor := (spanFrom isBlank r.offset r.rest).2

/-- A dot stands at the place, and it stands alone. -/
def atDot (r : Cursor) : Bool :=
  r.peek == some '.' && r.bump.peek.all fun c => isBlank c || c == '(' || c == ')'

/-- A word ends before the character. -/
def endsAtom (c : Char) : Bool := isBlank c || c == '(' || c == ')' || c == ','

/-- The characters up to the end of the word, and the place behind them. -/
def atom (r : Cursor) : String × Cursor :=
  let (run, r) := spanFrom (!endsAtom ·) r.offset r.rest
  (String.ofList run, r)

/-- Reads the end of a list behind its tail. The items are given, the last one first. -/
def listEnd (items : List Term) (tail : Term) (r : Cursor) :
    ExceptT ReadError Option (Term × Cursor) :=
  let r := r.skipBlanks
  match r.peek with
  | none => throw .unexpectedEnd
  | some c =>
    if c = ')' then pure (.ofReversed items tail, r.bump) else throw (.unexpected c r.offset)

mutual

/-- Reads a term, and gives the place behind it. -/
def termWithin : Nat → Cursor → ExceptT ReadError Option (Term × Cursor)
  | 0, _ => ExceptT.mk none
  | n + 1, r =>
    let r := r.skipBlanks
    match r.peek with
    | none => throw .unexpectedEnd
    | some c =>
      if c = '(' then listWithin n [] r.bump
      else if c = ')' ∨ r.atDot then throw (.unexpected c r.offset)
      else if c = ',' then
        let (name, behind) := r.bump.atom
        if name = "" then throw (.unnamedVariable r.offset) else pure (.var ⟨name⟩, behind)
      else
        let (text, behind) := r.atom
        pure (.sym text, behind)

/-- Reads the items of a list that are still to come, and its end. The items before are given. -/
def listWithin : Nat → List Term → Cursor → ExceptT ReadError Option (Term × Cursor)
  | 0, _, _ => ExceptT.mk none
  | n + 1, items, r =>
    let r := r.skipBlanks
    match r.peek with
    | none => throw .unexpectedEnd
    | some c =>
      if c = ')' then pure (.ofReversed items .nil, r.bump)
      else if r.atDot then
        if items.isEmpty then throw (.unexpected '.' r.offset)
        else do
          let (tail, r) ← termWithin n r.bump
          listEnd items tail r
      else do
        let (item, r) ← termWithin n r
        listWithin n (item :: items) r

end

end Cursor

/-- The term that a text writes, read with so many calls within each other at most. -/
def Term.descend (n : Nat) (text : String) : ExceptT ReadError Option Term := do
  let (t, r) ← (Cursor.start text).termWithin n
  let r := r.skipBlanks
  if r.peek.isSome then throw (.trailing r.offset) else pure t

end Relational
