import Relational.Term.Lexeme

/-!
# Splitting texts into tokens

`lexemes` reads a text character by character and keeps the word that it is in. Here the same is said
of whole words: a word goes on as far as it can, and a dot is a token of its own where a blank, a
parenthesis or the end follows it (`Splits`). What the pass makes of a text of which a word has been
begun is `lexemesAfter`, with one equation for each way in which the text can go on, and
`lexemeInduction` takes a text apart as the pass does, word by word. `splits_iff` says that a text
splits into the tokens of its lexemes and into nothing else, unless a comma in it has no name behind
it; such a text does not split at all.
-/

namespace Relational

open Text (isBlank)

/-! ## Words and tokens -/

/-- A word ends before the character. -/
def Delimits (c : Char) : Prop := isBlank c = true ∨ c = '(' ∨ c = ')' ∨ c = ','

instance (c : Char) : Decidable (Delimits c) := inferInstanceAs (Decidable (_ ∨ _ ∨ _ ∨ _))

/-- The characters of a word or of a name: there are some, and none at which a word would end. -/
structure IsWord (a : List Char) : Prop where
  ne_nil : a ≠ []
  not_delimits : ∀ c ∈ a, ¬ Delimits c

/-- A word that stands before the text goes on no further. -/
def EndsWord (cs : List Char) : Prop := ∀ c ∈ cs.head?, Delimits c

/-- A dot that stands before the text stands alone. -/
def EndsDot (cs : List Char) : Prop := ∀ c ∈ cs.head?, isBlank c = true ∨ c = '(' ∨ c = ')'

instance (cs : List Char) : Decidable (EndsDot cs) :=
  inferInstanceAs (Decidable (∀ c ∈ cs.head?, _))

/-- The text consists of the tokens, with blanks between them where there are any. -/
inductive Splits : List Char → List Token → Prop
  | nil : Splits [] []
  | blank {c : Char} {cs : List Char} {ts : List Token} (hc : isBlank c = true)
      (h : Splits cs ts) :
    Splits (c :: cs) ts
  | lparen {cs : List Char} {ts : List Token} (h : Splits cs ts) :
    Splits ('(' :: cs) (.lparen :: ts)
  | rparen {cs : List Char} {ts : List Token} (h : Splits cs ts) :
    Splits (')' :: cs) (.rparen :: ts)
  | dot {cs : List Char} {ts : List Token} (hcs : EndsDot cs) (h : Splits cs ts) :
    Splits ('.' :: cs) (.dot :: ts)
  | var {n cs : List Char} {ts : List Token} (hn : IsWord n) (hcs : EndsWord cs)
      (h : Splits cs ts) :
    Splits (',' :: (n ++ cs)) (.var (String.ofList n) :: ts)
  | atom {a cs : List Char} {ts : List Token} (ha : IsWord a) (hcs : EndsWord cs)
      (hdot : ¬ (a = ['.'] ∧ EndsDot cs)) (h : Splits cs ts) :
    Splits (a ++ cs) (.atom (String.ofList a) :: ts)

variable {c : Char} {a n cs : List Char} {ts : List Token} {w : Word} {o : Nat}

theorem EndsDot.endsWord (h : EndsDot cs) : EndsWord cs := fun c hc =>
  (h c hc).imp_right fun h => h.imp_right .inl

/-- What ends a word ends a dot too, if it is no comma. -/
theorem EndsWord.endsDot_iff (h : EndsWord cs) : EndsDot cs ↔ cs.head? ≠ some ',' := by
  constructor
  · intro hdot hcomma
    rcases hdot ',' hcomma with hblank | hparen | hparen
    · exact absurd hblank (by decide)
    · cases hparen
    · cases hparen
  · intro hne c hc
    rcases h c hc with hblank | hparen | hparen | rfl
    · exact .inl hblank
    · exact .inr (.inl hparen)
    · exact .inr (.inr hparen)
    · exact absurd hc hne

/-! ## The pass -/

/-- The same scan, with more lexemes complete before. -/
def Scan.onto (older : List Lexeme) (s : Scan) : Scan := { s with reversed := s.reversed ++ older }

theorem Scan.flush_onto (older : List Lexeme) (s : Scan) (atComma : Bool) :
    (s.onto older).flush atComma = s.flush atComma ++ older := by
  obtain ⟨offset, word, reversed⟩ := s
  cases word <;> rfl

/-- What is complete is not looked at again. -/
theorem Scan.step_onto (older : List Lexeme) (s : Scan) (c : Char) :
    (s.onto older).step c = (s.step c).onto older := by
  obtain ⟨offset, word, reversed⟩ := s
  simp only [step, flush_onto]
  split
  · rfl
  split
  · rfl
  split
  · rfl
  split
  · rfl
  · cases word <;> rfl

theorem Scan.foldl_step_onto (older : List Lexeme) (s : Scan) (cs : List Char) :
    cs.foldl step (s.onto older) = (cs.foldl step s).onto older := by
  induction cs generalizing s with
  | nil => rfl
  | cons c cs ih => rw [List.foldl_cons, List.foldl_cons, step_onto, ih]

/-- The lexemes of a text that starts at an offset, where the word `word` is being read. -/
def lexemesAfter (word : Option Word) (offset : Nat) (cs : List Char) : List Lexeme :=
  ((cs.foldl Scan.step ⟨offset, word, []⟩).flush false).reverse

/-- After one more character, what has become complete stands first. -/
theorem lexemesAfter_cons (word : Option Word) (o : Nat) (c : Char) (cs : List Char) :
    lexemesAfter word o (c :: cs) =
      (Scan.step ⟨o, word, []⟩ c).reversed.reverse ++
        lexemesAfter (Scan.step ⟨o, word, []⟩ c).word (Scan.step ⟨o, word, []⟩ c).offset cs := by
  rw [lexemesAfter, List.foldl_cons]
  generalize Scan.step ⟨o, word, []⟩ c = s
  have hs : s = Scan.onto s.reversed ⟨s.offset, s.word, []⟩ := rfl
  rw [hs, Scan.foldl_step_onto, Scan.flush_onto, List.reverse_append]
  rfl

/-! ### How a text goes on -/

theorem lexemesAfter_blank (hc : isBlank c = true) :
    lexemesAfter none o (c :: cs) = lexemesAfter none (o + c.utf8Size) cs := by
  rw [lexemesAfter_cons, Scan.step, if_pos hc]
  rfl

theorem lexemesAfter_lparen : lexemesAfter none o ('(' :: cs) =
    ⟨o, '(', .lparen⟩ :: lexemesAfter none (o + 1) cs := lexemesAfter_cons ..

theorem lexemesAfter_rparen : lexemesAfter none o (')' :: cs) =
    ⟨o, ')', .rparen⟩ :: lexemesAfter none (o + 1) cs := lexemesAfter_cons ..

theorem lexemesAfter_comma : lexemesAfter none o (',' :: cs) =
    lexemesAfter (some ⟨o, ',', []⟩) (o + 1) cs := lexemesAfter_cons ..

/-- A character that delimits nothing begins a word. -/
theorem lexemesAfter_begin (hc : ¬ Delimits c) :
    lexemesAfter none o (c :: cs) = lexemesAfter (some ⟨o, c, [c]⟩) (o + c.utf8Size) cs := by
  simp only [Delimits, not_or] at hc
  simp only [lexemesAfter_cons, Scan.step, hc, Bool.false_eq_true, if_false]
  rfl

/-- A character that delimits nothing goes on with the word. -/
theorem lexemesAfter_continue (hc : ¬ Delimits c) : lexemesAfter (some w) o (c :: cs) =
    lexemesAfter (some { w with reversed := c :: w.reversed }) (o + c.utf8Size) cs := by
  simp only [Delimits, not_or] at hc
  simp only [lexemesAfter_cons, Scan.step, hc, Bool.false_eq_true, if_false]
  rfl

/-- Where the word goes on no further, it is a lexeme. -/
theorem lexemesAfter_end (hcs : EndsWord cs) : lexemesAfter (some w) o cs =
    w.lexeme (cs.head? = some ',') :: lexemesAfter none o cs := by
  cases cs with
  | nil => rfl
  | cons c cs =>
    rw [lexemesAfter_cons, lexemesAfter_cons none]
    rcases hcs c rfl with hblank | rfl | rfl | rfl
    · have hne : c ≠ ',' := by
        rintro rfl
        exact absurd hblank (by decide)
      simp [Scan.step, hblank, Scan.flush, hne]
    · rfl
    · rfl
    · rfl

/-- How many bytes characters take. -/
def utf8Sizes : List Char → Nat
  | [] => 0
  | c :: cs => c.utf8Size + utf8Sizes cs

/-- The word takes all characters up to the one that ends it. -/
theorem lexemesAfter_append (hn : ∀ c ∈ n, ¬ Delimits c) (hcs : EndsWord cs) :
    lexemesAfter (some w) o (n ++ cs) =
      ({ w with reversed := n.reverse ++ w.reversed } : Word).lexeme (cs.head? = some ',') ::
        lexemesAfter none (o + utf8Sizes n) cs := by
  induction n generalizing w o with
  | nil => exact lexemesAfter_end hcs
  | cons c n ih =>
    have ⟨hc, hn⟩ := List.forall_mem_cons.1 hn
    rw [List.cons_append, lexemesAfter_continue hc, ih hn, utf8Sizes, Nat.add_assoc]
    simp

/-- A comma with the name behind it. -/
theorem lexemesAfter_var (hn : ∀ c ∈ n, ¬ Delimits c) (hcs : EndsWord cs) :
    lexemesAfter none o (',' :: (n ++ cs)) =
      ⟨o, ',', if n = [] then .bareComma else .var (String.ofList n)⟩ ::
        lexemesAfter none (o + 1 + utf8Sizes n) cs := by
  rw [lexemesAfter_comma, lexemesAfter_append hn hcs]
  simp [Word.lexeme, Word.token]

/-- A word that is no variable: a symbol or a dot. -/
theorem lexemesAfter_word (ha : IsWord (c :: a)) (hcs : EndsWord cs) :
    lexemesAfter none o (c :: a ++ cs) =
      ⟨o, c, if c :: a = ['.'] ∧ EndsDot cs then .dot else .atom (String.ofList (c :: a))⟩ ::
        lexemesAfter none (o + utf8Sizes (c :: a)) cs := by
  have ⟨hc, ha⟩ := List.forall_mem_cons.1 ha.not_delimits
  have hne : c ≠ ',' := fun h => hc (.inr (.inr (.inr h)))
  rw [List.cons_append, lexemesAfter_begin hc, lexemesAfter_append ha hcs, utf8Sizes,
    Nat.add_assoc]
  have hdot : c :: a = ['.'] ↔ a.reverse ++ [c] = ['.'] := by
    rw [← List.reverse_cons, List.reverse_eq_iff]
    rfl
  simp only [Word.lexeme, Word.token, if_neg hne, hcs.endsDot_iff, hdot, Bool.and_eq_true,
    Bool.not_eq_true', decide_eq_true_eq, decide_eq_false_iff_not, ne_eq]
  simp

/-! ## Taking a text apart -/

/-- A text begins with a longest run of characters that delimit nothing, possibly an empty one. -/
theorem exists_run (cs : List Char) :
    ∃ n rest, cs = n ++ rest ∧ (∀ c ∈ n, ¬ Delimits c) ∧ EndsWord rest := by
  induction cs with
  | nil => exact ⟨[], [], rfl, nofun, nofun⟩
  | cons c cs ih =>
    by_cases hc : Delimits c
    · exact ⟨[], c :: cs, rfl, nofun, fun d hd => by cases hd; exact hc⟩
    · obtain ⟨n, rest, rfl, hn, hrest⟩ := ih
      exact ⟨c :: n, rest, rfl, List.forall_mem_cons.2 ⟨hc, hn⟩, hrest⟩

/-- Induction along a text, word by word. -/
@[elab_as_elim]
theorem lexemeInduction {motive : List Char → Prop} (nil : motive [])
    (blank : ∀ c cs, isBlank c = true → motive cs → motive (c :: cs))
    (lparen : ∀ cs, motive cs → motive ('(' :: cs))
    (rparen : ∀ cs, motive cs → motive (')' :: cs))
    (comma : ∀ n cs, (∀ c ∈ n, ¬ Delimits c) → EndsWord cs → motive cs → motive (',' :: (n ++ cs)))
    (word : ∀ c a cs, IsWord (c :: a) → EndsWord cs → motive cs → motive (c :: a ++ cs))
    (cs : List Char) : motive cs := by
  -- what follows a word is no part of the tail of the text, hence the induction on the length
  induction hlen : cs.length using Nat.strongRecOn generalizing cs with
  | ind m ih =>
    have hrec : ∀ rest : List Char, rest.length < cs.length → motive rest := fun rest h =>
      ih _ (hlen ▸ h) rest rfl
    have happend : ∀ (c : Char) (a rest : List Char), rest.length < (c :: (a ++ rest)).length :=
      fun c a rest => by simp only [List.length_cons, List.length_append]; omega
    cases cs with
    | nil => exact nil
    | cons c cs =>
      by_cases hc : Delimits c
      · rcases hc with hblank | rfl | rfl | rfl
        · exact blank c cs hblank (hrec cs (happend _ [] cs))
        · exact lparen cs (hrec cs (happend _ [] cs))
        · exact rparen cs (hrec cs (happend _ [] cs))
        · obtain ⟨n, rest, rfl, hn, hrest⟩ := exists_run cs
          exact comma n rest hn hrest (hrec rest (happend _ _ rest))
      · obtain ⟨a, rest, rfl, ha, hrest⟩ := exists_run cs
        have hword : IsWord (c :: a) := ⟨by simp, List.forall_mem_cons.2 ⟨hc, ha⟩⟩
        exact word c a rest hword hrest (hrec rest (happend _ _ rest))

/-! ## Splitting -/

theorem isWord_dot : IsWord ['.'] := ⟨nofun, List.forall_mem_singleton.2 (by decide)⟩

/-- The pass finds the tokens of a text that splits. -/
theorem Splits.map_token (h : Splits cs ts) : ∀ o, (lexemesAfter none o cs).map (·.token) = ts := by
  induction h with
  | nil => exact fun _ => rfl
  | blank hc _ ih => exact fun o => by rw [lexemesAfter_blank hc, ih]
  | lparen _ ih => exact fun o => by rw [lexemesAfter_lparen, List.map_cons, ih]
  | rparen _ ih => exact fun o => by rw [lexemesAfter_rparen, List.map_cons, ih]
  | @dot cs _ hcs _ ih =>
    intro o
    have h := lexemesAfter_word (o := o) isWord_dot hcs.endsWord
    rw [if_pos ⟨rfl, hcs⟩] at h
    rw [← List.singleton_append, h, List.map_cons, ih]
  | var hn hcs _ ih =>
    intro o
    rw [lexemesAfter_var hn.not_delimits hcs, if_neg hn.ne_nil, List.map_cons, ih]
  | @atom a cs _ ha hcs hdot _ ih =>
    intro o
    cases a with
    | nil => exact absurd rfl ha.ne_nil
    | cons c a => rw [lexemesAfter_word ha hcs, if_neg hdot, List.map_cons, ih]

/-- A text without a lone comma splits into the tokens that the pass finds. -/
theorem splits_map_token (cs : List Char) :
    ∀ o, .bareComma ∉ (lexemesAfter none o cs).map (·.token) →
      Splits cs ((lexemesAfter none o cs).map (·.token)) := by
  induction cs using lexemeInduction with
  | nil => exact fun _ _ => .nil
  | blank c cs hc ih =>
    intro o h
    rw [lexemesAfter_blank hc] at h ⊢
    exact .blank hc (ih _ h)
  | lparen cs ih =>
    intro o h
    rw [lexemesAfter_lparen] at h ⊢
    exact .lparen (ih _ (List.not_mem_of_not_mem_cons h))
  | rparen cs ih =>
    intro o h
    rw [lexemesAfter_rparen] at h ⊢
    exact .rparen (ih _ (List.not_mem_of_not_mem_cons h))
  | comma n cs hn hcs ih =>
    intro o h
    rw [lexemesAfter_var hn hcs] at h ⊢
    have hne : n ≠ [] := by
      rintro rfl
      exact h (List.mem_cons_self ..)
    rw [if_neg hne] at h ⊢
    exact .var ⟨hne, hn⟩ hcs (ih _ (List.not_mem_of_not_mem_cons h))
  | word c a cs ha hcs ih =>
    intro o h
    rw [lexemesAfter_word ha hcs] at h ⊢
    have hrest := ih _ (List.not_mem_of_not_mem_cons h)
    by_cases hdot : c :: a = ['.'] ∧ EndsDot cs
    · obtain ⟨heq, hcs⟩ := hdot
      cases heq
      rw [if_pos ⟨rfl, hcs⟩]
      exact .dot hcs hrest
    · rw [if_neg hdot]
      exact .atom ha hcs hdot hrest

theorem Splits.bareComma_not_mem (h : Splits cs ts) : .bareComma ∉ ts := by
  induction h with
  | nil => exact List.not_mem_nil
  | blank _ _ ih => exact ih
  | lparen _ ih | rparen _ ih | dot _ _ ih | var _ _ _ ih | atom _ _ _ _ ih =>
    exact fun h => (List.mem_cons.1 h).elim nofun ih

/-- A text splits into the tokens of its lexemes and into no others, and it splits unless there is a
lone comma. -/
theorem splits_iff :
    Splits cs ts ↔ (lexemes cs).map (·.token) = ts ∧ .bareComma ∉ ts := by
  constructor
  · exact fun h => ⟨h.map_token 0, h.bareComma_not_mem⟩
  · rintro ⟨rfl, h⟩
    exact splits_map_token cs 0 h

theorem Splits.unique {us : List Token} (h : Splits cs ts) (h' : Splits cs us) : ts = us :=
  (splits_iff.1 h).1.symm.trans (splits_iff.1 h').1

end Relational
