import Relational.Term.Basic
import Relational.Term.Lexeme

/-!
# Reading terms

`Term.parse` reads a text as one term, or tells what is wrong with it and where. The reader takes
one lexeme after the other and keeps the lists that are still open, the innermost one first. A reader
that has calls in the place of both is in `Relational.Term.Descent`.
-/

namespace Relational

/-- Why a text is not the written form of a term. Offsets count bytes of UTF-8. -/
inductive ReadError where
  /-- The text ends where a term or the end of a list has to come. -/
  | unexpectedEnd
  /-- The lexeme that begins with `found` cannot stand where it stands. -/
  | unexpected (found : Char) (offset : Nat)
  /-- A comma has no name behind it. -/
  | unnamedVariable (offset : Nat)
  /-- More text follows the term. -/
  | trailing (offset : Nat)
deriving DecidableEq

/-- The text of an error. -/
def ReadError.message : ReadError → String
  | unexpectedEnd => "unexpected end of input"
  | unexpected found offset =>
    "unexpected `" ++ found.toString ++ "` at offset " ++ offset.repr
  | unnamedVariable offset =>
    "variable marker at offset " ++ offset.repr ++ " is not followed by a name"
  | trailing offset => "unexpected trailing input at offset " ++ offset.repr

/-- A list whose closing parenthesis is not yet reached. -/
structure OpenList where
  /-- The items, the last one first. -/
  reversed : List Term
  /-- A dot has been read, and the tail comes next. -/
  dotted : Bool

/-- How far a term has been read. -/
inductive Reading where
  /-- A term comes next, or the end of the innermost open list. -/
  | expecting (opened : List OpenList)
  /-- The tail of a list has been read, and its closing parenthesis comes next. -/
  | closing (reversed : List Term) (tail : Term) (opened : List OpenList)
  /-- The whole term has been read. -/
  | complete (t : Term)
  /-- The text is no term. -/
  | failed (e : ReadError)

namespace Reading

/-- Nothing has been read. -/
def start : Reading := expecting []

/-- A term has been read: it is an item or the tail of the innermost open list, or all there is. -/
def deliver (t : Term) : List OpenList → Reading
  | [] => complete t
  | l :: opened =>
    if l.dotted then closing l.reversed t opened
    else expecting ({ l with reversed := t :: l.reversed } :: opened)

/-- One more lexeme is read where a term may come. -/
def expect (opened : List OpenList) (l : Lexeme) : Reading :=
  match l.token with
  | .lparen => expecting (⟨[], false⟩ :: opened)
  | .atom s => deliver (.sym s) opened
  | .var x => deliver (.var ⟨x⟩) opened
  | .bareComma => failed (.unnamedVariable l.offset)
  | .rparen =>
    match opened with
    | ⟨items, false⟩ :: outer => deliver (.ofReversed items .nil) outer
    | _ => failed (.unexpected l.first l.offset)
  | .dot =>
    match opened with
    | ⟨item :: items, false⟩ :: outer => expecting (⟨item :: items, true⟩ :: outer)
    | _ => failed (.unexpected l.first l.offset)

/-- One more lexeme is read. -/
def step : Reading → Lexeme → Reading
  | expecting opened, l => expect opened l
  | closing items tail opened, l =>
    if l.token = .rparen then deliver (.ofReversed items tail) opened
    else failed (.unexpected l.first l.offset)
  | complete _, l => failed (.trailing l.offset)
  | failed e, _ => failed e

/-- What has been read when the text ends. -/
def finish : Reading → Except ReadError Term
  | complete t => .ok t
  | failed e => .error e
  | expecting _ | closing .. => .error .unexpectedEnd

end Reading

/-- The term that a list of lexemes writes. -/
def Term.ofLexemes (ls : List Lexeme) : Except ReadError Term :=
  (ls.foldl Reading.step .start).finish

/-- The term that a text writes. -/
def Term.parse (text : String) : Except ReadError Term :=
  Term.ofLexemes (lexemes text.toList)

end Relational
