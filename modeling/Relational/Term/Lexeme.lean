import Relational.Text.Blank

/-!
# Lexemes

The words that written terms consist of: parentheses, atoms, variables, and the dot before the tail
of a list. A word goes on until a blank, a parenthesis or a comma. `lexemes` cuts a text into its
words in one pass from left to right, and gives with each the offset at which it starts, counted in
bytes of UTF-8.
-/

namespace Relational

open Text (isBlank)

/-- What a lexeme says, regardless of where it stands. -/
inductive Token where
  | lparen
  | rparen
  /-- A dot that stands alone: a blank, a parenthesis or the end of the text follows it. -/
  | dot
  /-- A symbol. -/
  | atom (text : String)
  /-- A comma and the name behind it. -/
  | var (name : String)
  /-- A comma without a name behind it. -/
  | bareComma
deriving DecidableEq

/-- A token at its place in a text. -/
structure Lexeme where
  /-- How many bytes of the text stand before the lexeme. -/
  offset : Nat
  /-- The first character of the lexeme. -/
  first : Char
  token : Token
deriving DecidableEq

/-- A word of which the end is not yet reached. -/
structure Word where
  /-- How many bytes of the text stand before the word. -/
  offset : Nat
  /-- The first character of the word, a comma when the word is a variable. -/
  first : Char
  /-- The characters of the symbol or of the variable's name, the last one first. -/
  reversed : List Char

namespace Word

/-- The token of a word that has ended; `atComma` tells that it has ended before a comma, where a
dot is a symbol. -/
def token (w : Word) (atComma : Bool) : Token :=
  if w.first = ',' then
    if w.reversed.isEmpty then .bareComma else .var (String.ofList w.reversed.reverse)
  else if w.reversed = ['.'] && !atComma then .dot
  else .atom (String.ofList w.reversed.reverse)

/-- The lexeme of a word that has ended. -/
def lexeme (w : Word) (atComma : Bool) : Lexeme := ⟨w.offset, w.first, w.token atComma⟩

end Word

/-- A text that is being cut into lexemes, as far as it has been read. -/
structure Scan where
  /-- How many bytes have been read. -/
  offset : Nat
  /-- The word that is being read. -/
  word : Option Word
  /-- The lexemes that are complete, the last one first. -/
  reversed : List Lexeme

namespace Scan

/-- Nothing has been read. -/
def start : Scan := ⟨0, none, []⟩

/-- The complete lexemes, the last one first, when the word being read ends here. -/
def flush (s : Scan) (atComma : Bool) : List Lexeme :=
  match s.word with
  | none => s.reversed
  | some w => w.lexeme atComma :: s.reversed

/-- One more character is read. -/
def step (s : Scan) (c : Char) : Scan :=
  let next := s.offset + c.utf8Size
  if isBlank c then ⟨next, none, s.flush false⟩
  else if c = '(' then ⟨next, none, ⟨s.offset, c, .lparen⟩ :: s.flush false⟩
  else if c = ')' then ⟨next, none, ⟨s.offset, c, .rparen⟩ :: s.flush false⟩
  else if c = ',' then ⟨next, some ⟨s.offset, c, []⟩, s.flush true⟩
  else match s.word with
    | none => ⟨next, some ⟨s.offset, c, [c]⟩, s.reversed⟩
    | some w => ⟨next, some { w with reversed := c :: w.reversed }, s.reversed⟩

end Scan

/-- The lexemes of a text, in order. -/
def lexemes (text : List Char) : List Lexeme :=
  ((text.foldl Scan.step .start).flush false).reverse

end Relational
