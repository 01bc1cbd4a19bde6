import Relational.Proofs.Term.Splitting

/-!
# The places of lexemes

A lexeme begins at a character that is no blank, and of what comes before it nothing depends on how
the text goes on behind that character (`precedes_of_eq`). So the lexemes before it stay as they are
when more text is added, and it is enough to say what can become of the lexeme at the beginning of a
text (`exists_lexemesAfter_cons`): whether that is a dot or a lone comma shows as soon as one more
character is there.
-/

namespace Relational

open Text (isBlank)

variable {c : Char} {cs after rest : List Char} {o : Nat} {l : Lexeme} {pre post : List Lexeme}

/-! ## What stands at a place -/

/-- In the text the character stands at an offset, counted in bytes, and a text behind it. -/
def StandsAt (text : List Char) (offset : Nat) (c : Char) (after : List Char) : Prop :=
  ∃ before, text = before ++ c :: after ∧ utf8Sizes before = offset

/-- The last character of a text has nothing behind it. -/
theorem StandsAt.ne_nil {text : List Char} (h : StandsAt text o c after)
    (hlast : text.getLast? ≠ some c) : after ≠ [] := by
  rintro rfl
  obtain ⟨before, rfl, -⟩ := h
  exact hlast List.getLast?_concat

theorem endsWord_congr (h : cs.head? = rest.head?) : EndsWord cs ↔ EndsWord rest := by
  rw [EndsWord, EndsWord, h]

theorem endsDot_congr (h : cs.head? = rest.head?) : EndsDot cs ↔ EndsDot rest := by
  rw [EndsDot, EndsDot, h]

theorem utf8Sizes_append (cs rest : List Char) :
    utf8Sizes (cs ++ rest) = utf8Sizes cs + utf8Sizes rest := by
  induction cs with
  | nil => rw [List.nil_append, utf8Sizes, Nat.zero_add]
  | cons c cs ih => rw [List.cons_append, utf8Sizes, utf8Sizes, ih, Nat.add_assoc]

/-! ## The first lexeme -/

/-- What a token shows about the character at which it begins and about the text behind that: whether
it is a parenthesis that closes, a lone comma or a dot. -/
structure Begins (c : Char) (after : List Char) (token : Token) : Prop where
  rparen : token = .rparen ↔ c = ')'
  bareComma : token = .bareComma ↔ c = ',' ∧ EndsWord after
  dot : token = .dot ↔ c = '.' ∧ EndsDot after

/-- A text that begins with a character that is no blank begins with a lexeme. -/
theorem exists_lexemesAfter_cons (hc : isBlank c = false) (after : List Char) (o : Nat) :
    ∃ token post, lexemesAfter none o (c :: after) = ⟨o, c, token⟩ :: post ∧
      Begins c after token := by
  by_cases hdelimits : Delimits c
  · rcases hdelimits with hblank | rfl | rfl | rfl
    · rw [hc] at hblank
      cases hblank
    · exact ⟨_, _, lexemesAfter_lparen, by simp, by simp, by simp⟩
    · exact ⟨_, _, lexemesAfter_rparen, by simp, by simp, by simp⟩
    · obtain ⟨n, rest, rfl, hn, hrest⟩ := exists_run after
      refine ⟨_, _, lexemesAfter_var hn hrest, ?_, ?_, ?_⟩
      · split <;> simp
      · cases n with
        | nil => simpa using hrest
        | cons d n =>
          have hd := List.forall_mem_cons.1 hn
          simp [EndsWord, hd.1]
      · split <;> simp
  · obtain ⟨a, rest, rfl, ha, hrest⟩ := exists_run after
    have hword : IsWord (c :: a) := ⟨by simp, List.forall_mem_cons.2 ⟨hdelimits, ha⟩⟩
    have hrparen : c ≠ ')' := fun h => hdelimits (.inr (.inr (.inl h)))
    have hcomma : c ≠ ',' := fun h => hdelimits (.inr (.inr (.inr h)))
    refine ⟨_, _, lexemesAfter_word hword hrest, ?_, ?_, ?_⟩
    · split <;> simp [hrparen]
    · split <;> simp [hcomma]
    · cases a with
      | nil => simp
      | cons d a =>
        have hd := (List.forall_mem_cons.1 ha).1
        have hdot : ¬ EndsDot (d :: (a ++ rest)) := fun h => hd (h.endsWord d rfl)
        simp [hdot]

/-! ## The lexemes before -/

/-- In the text there is a place at which a lexeme begins, and before it these lexemes stand, whatever
comes behind the character at the place. -/
def Precedes (pre : List Lexeme) (o : Nat) (cs : List Char) : Prop :=
  ∃ before c after, cs = before ++ c :: after ∧ isBlank c = false ∧
    ∀ rest, lexemesAfter none o (before ++ c :: rest) =
      pre ++ lexemesAfter none (o + utf8Sizes before) (c :: rest)

theorem precedes_nil (hc : isBlank c = false) (o : Nat) (cs : List Char) :
    Precedes [] o (c :: cs) := ⟨[], c, cs, rfl, hc, fun _ => rfl⟩

/-- How a text is split does not depend on more than the first character of what comes behind it. -/
theorem Precedes.behind (skipped : List Char) (ls : List Lexeme)
    (h : Precedes pre (o + utf8Sizes skipped) cs) (hskipped : ∀ rest : List Char,
      rest.head? = cs.head? → lexemesAfter none o (skipped ++ rest) =
        ls ++ lexemesAfter none (o + utf8Sizes skipped) rest) :
    Precedes (ls ++ pre) o (skipped ++ cs) := by
  obtain ⟨before, c, after, rfl, hc, hpre⟩ := h
  refine ⟨skipped ++ before, c, after, (List.append_assoc ..).symm, hc, fun rest => ?_⟩
  have hhead : (before ++ c :: rest).head? = (before ++ c :: after).head? := by cases before <;> rfl
  rw [List.append_assoc, hskipped _ hhead, hpre rest, List.append_assoc, utf8Sizes_append,
    Nat.add_assoc]

/-- A lexeme of a text is its first one or one of those behind that. -/
theorem precedes_of_first (skipped : List Char) (first : Lexeme)
    (ih : ∀ {pre o}, lexemesAfter none o cs = pre ++ l :: post → Precedes pre o cs)
    (hc : isBlank c = false) (hskipped : ∀ rest : List Char, rest.head? = cs.head? →
      lexemesAfter none o (c :: skipped ++ rest) =
        first :: lexemesAfter none (o + utf8Sizes (c :: skipped)) rest)
    (h : lexemesAfter none o (c :: skipped ++ cs) = pre ++ l :: post) :
    Precedes pre o (c :: skipped ++ cs) := by
  rw [hskipped cs rfl] at h
  cases pre with
  | nil => exact precedes_nil hc o _
  | cons x pre =>
    rw [List.cons_append, List.cons_eq_cons] at h
    obtain ⟨rfl, h⟩ := h
    exact (ih h).behind (c :: skipped) [first] hskipped

/-- The lexemes before any lexeme of a text are those before some place. -/
theorem precedes_of_eq (h : lexemesAfter none o cs = pre ++ l :: post) : Precedes pre o cs := by
  induction cs using lexemeInduction generalizing pre o with
  | nil => cases pre <;> cases h
  | blank c cs hc ih =>
    rw [lexemesAfter_blank hc] at h
    exact (ih h).behind [c] [] fun rest _ => lexemesAfter_blank hc
  | lparen cs ih =>
    exact precedes_of_first [] _ ih (by decide) (fun rest _ => lexemesAfter_lparen) h
  | rparen cs ih =>
    exact precedes_of_first [] _ ih (by decide) (fun rest _ => lexemesAfter_rparen) h
  | comma n cs hn hcs ih =>
    refine precedes_of_first n ⟨o, ',', if n = [] then .bareComma else .var (String.ofList n)⟩ ih
      (by decide) (fun rest hrest => ?_) h
    rw [List.cons_append, lexemesAfter_var hn ((endsWord_congr hrest).2 hcs), Nat.add_assoc]
    rfl
  | word c a cs ha hcs ih =>
    have hc : isBlank c = false := Bool.eq_false_iff.2 fun hblank =>
      ha.not_delimits c List.mem_cons_self (.inl hblank)
    refine precedes_of_first a ⟨o, c, if c :: a = ['.'] ∧ EndsDot cs then .dot else
      .atom (String.ofList (c :: a))⟩ ih hc (fun rest hrest => ?_) h
    simp only [lexemesAfter_word ha ((endsWord_congr hrest).2 hcs), endsDot_congr hrest]

/-! ## Behind a blank -/

/-- Behind a blank a text is split on its own. -/
theorem exists_lexemesAfter_append (hc : isBlank c = true) (cs rest : List Char) (o : Nat) :
    ∃ o', lexemesAfter none o (cs ++ c :: rest) =
      lexemesAfter none o cs ++ lexemesAfter none o' rest := by
  rw [lexemesAfter, List.foldl_append, List.foldl_cons, Scan.step, if_pos hc]
  generalize hs : cs.foldl Scan.step ⟨o, none, []⟩ = s
  refine ⟨s.offset + c.utf8Size, ?_⟩
  have honto : (⟨s.offset + c.utf8Size, none, s.flush false⟩ : Scan) =
      Scan.onto (s.flush false) ⟨s.offset + c.utf8Size, none, []⟩ := rfl
  rw [honto, Scan.foldl_step_onto, Scan.flush_onto, List.reverse_append, lexemesAfter, hs]
  rfl

end Relational
