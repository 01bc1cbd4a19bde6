import Relational.Proofs.Term.Grammar
import Relational.Proofs.Term.Places

/-!
# What is wrong with a text

The reader stops at the first lexeme that cannot stand where it stands, and that is what it reports
(`exists_failed_step`). What comes before that lexeme is not changed by text that is added at the end,
and neither is the lexeme, as soon as one more character stands behind it; so the reader fails there
again (`FailsAt.stable`). If it stops nowhere, then a term or some parentheses are missing, and with
these the text can be read (`exists_completion`).
-/

namespace Relational

open Text (isBlank)

variable {opened : List OpenList} {r : Reading} {l l' : Lexeme} {ls : List Lexeme} {e : ReadError}
  {t : Term} {w : String} {c : Char} {before after : List Char} {token token' : Token}

namespace Reading

/-! ## The step that fails -/

/-- The reader has found no error yet. -/
def Going (r : Reading) : Prop := ∀ e, r ≠ failed e

theorem start_going : start.Going := nofun

theorem foldl_step_failed (e : ReadError) (ls : List Lexeme) :
    ls.foldl step (failed e) = failed e := by
  induction ls with
  | nil => rfl
  | cons l ls ih => exact ih

theorem deliver_going (t : Term) (opened : List OpenList) : (deliver t opened).Going := by
  intro e h
  cases opened with
  | nil => cases h
  | cons l opened =>
    rw [deliver] at h
    split at h <;> cases h

/-- An error is found at one of the lexemes. -/
theorem exists_failed_step (hr : r.Going) (h : ls.foldl step r = failed e) :
    ∃ pre l post, ls = pre ++ l :: post ∧ (pre.foldl step r).Going ∧
      (pre.foldl step r).step l = failed e := by
  induction ls generalizing r with
  | nil => exact absurd h (hr e)
  | cons l ls ih =>
    cases hl : r.step l with
    | failed e' =>
      rw [List.foldl_cons, hl, foldl_step_failed] at h
      cases h
      exact ⟨[], l, ls, rfl, hr, hl⟩
    | expecting | closing | complete =>
      obtain ⟨pre, l', post, rfl, hpre, hfailed⟩ := ih (by rw [hl]; exact nofun) h
      exact ⟨l :: pre, l', post, rfl, hpre, hfailed⟩

/-- Where a term may come, an error is found at a lone comma, at a parenthesis or at a dot. -/
theorem expect_eq_failed (h : expect opened l = failed e) :
    l.token = .bareComma ∧ e = .unnamedVariable l.offset ∨
      (l.token = .rparen ∨ l.token = .dot) ∧ e = .unexpected l.first l.offset := by
  obtain ⟨offset, first, token⟩ := l
  cases token with
  | lparen => cases h
  | atom | var => exact absurd h (deliver_going _ opened e)
  | bareComma =>
    cases h
    exact .inl ⟨rfl, rfl⟩
  | rparen =>
    rcases opened with _ | ⟨⟨items, _ | _⟩, outer⟩
    · cases h
      exact .inr ⟨.inl rfl, rfl⟩
    · exact absurd h (deliver_going _ outer e)
    · cases h
      exact .inr ⟨.inl rfl, rfl⟩
  | dot =>
    rcases opened with _ | ⟨⟨_ | ⟨item, items⟩, _ | _⟩, outer⟩ <;> cases h <;>
      exact .inr ⟨.inr rfl, rfl⟩

/-- What the reader says about the lexeme at which it fails. -/
theorem step_eq_failed (hr : r.Going) (h : r.step l = failed e) :
    (∃ t, r = complete t) ∧ e = .trailing l.offset ∨ e = .unexpected l.first l.offset ∨
      l.token = .bareComma ∧ e = .unnamedVariable l.offset := by
  cases r with
  | failed e' => exact absurd rfl (hr e')
  | complete t =>
    cases h
    exact .inl ⟨⟨t, rfl⟩, rfl⟩
  | closing items tail opened =>
    rw [step] at h
    split at h
    · exact absurd h (deliver_going _ opened e)
    · cases h
      exact .inr (.inl rfl)
  | expecting opened =>
    rcases expect_eq_failed h with ⟨htoken, rfl⟩ | ⟨-, rfl⟩
    · exact .inr (.inr ⟨htoken, rfl⟩)
    · exact .inr (.inl rfl)

/-- That the text ends too early is not said before its end. -/
theorem foldl_step_ne_unexpectedEnd (ls : List Lexeme) :
    ls.foldl step start ≠ failed .unexpectedEnd := by
  intro h
  obtain ⟨_, _, _, _, hgoing, hfailed⟩ := exists_failed_step start_going h
  rcases step_eq_failed hgoing hfailed with ⟨-, h⟩ | h | ⟨-, h⟩ <;> cases h

/-- The reader fails at a lexeme whatever comes behind the character that follows where the lexeme
begins. -/
theorem step_eq_failed_of_begins {after' : List Char} {o : Nat} (hr : r.Going)
    (hbegins : Begins c after token) (hbegins' : Begins c after' token')
    (hhead : after'.head? = after.head?) (h : r.step ⟨o, c, token⟩ = failed e) :
    r.step ⟨o, c, token'⟩ = failed e := by
  cases r with
  | failed e' => exact absurd rfl (hr e')
  | complete t => exact h
  | closing items tail opened =>
    simp only [step, hbegins.rparen] at h
    simpa only [step, hbegins'.rparen] using h
  | expecting opened =>
    have hsame : token' = token := by
      rcases expect_eq_failed h with ⟨rfl, -⟩ | ⟨rfl | rfl, -⟩
      · rw [hbegins'.bareComma, endsWord_congr hhead]
        exact hbegins.bareComma.1 rfl
      · rw [hbegins'.rparen]
        exact hbegins.rparen.1 rfl
      · rw [hbegins'.dot, endsDot_congr hhead]
        exact hbegins.dot.1 rfl
    rwa [hsame]

/-! ## What is missing -/

/-- The tokens take the reader from where it is to behind the term. -/
def Completes (r : Reading) (ts : List Token) : Prop :=
  ∀ ls : List Lexeme, ls.map (·.token) = ts → ∃ t, ls.foldl step r = complete t

/-- Behind a term the ends of the open lists are missing. -/
theorem deliver_completes (t : Term) (opened : List OpenList) :
    (deliver t opened).Completes (List.replicate opened.length .rparen) := by
  induction opened generalizing t with
  | nil =>
    intro ls hls
    obtain rfl := List.map_eq_nil_iff.1 hls
    exact ⟨t, rfl⟩
  | cons l opened ih =>
    intro ls hls
    obtain ⟨items, dotted⟩ := l
    obtain ⟨first, rest, rfl, hfirst, hrest⟩ := List.map_eq_cons_iff.1 hls
    rw [List.foldl_cons]
    cases dotted with
    | false =>
      rw [deliver, if_neg Bool.false_ne_true, step_rparen hfirst]
      exact ih _ rest hrest
    | true =>
      rw [deliver, if_pos rfl, step_closing hfirst]
      exact ih _ rest hrest

/-- Behind a tail the end of its list is missing too. -/
theorem closing_completes (items : List Term) (tail : Term) (opened : List OpenList) :
    (closing items tail opened).Completes (.rparen :: List.replicate opened.length .rparen) := by
  intro ls hls
  obtain ⟨first, rest, rfl, hfirst, hrest⟩ := List.map_eq_cons_iff.1 hls
  rw [List.foldl_cons, step_closing hfirst]
  exact deliver_completes _ opened rest hrest

/-- Where a term may come, any symbol will do for it. -/
theorem expecting_completes (s : String) (opened : List OpenList) :
    (expecting opened).Completes (.atom s :: List.replicate opened.length .rparen) := by
  intro ls hls
  obtain ⟨first, rest, rfl, hfirst, hrest⟩ := List.map_eq_cons_iff.1 hls
  rw [List.foldl_cons, step_sym hfirst]
  exact deliver_completes _ opened rest hrest

end Reading

theorem splits_rparens (n : Nat) : Splits (List.replicate n ')') (List.replicate n .rparen) := by
  induction n with
  | zero => exact .nil
  | succ n ih => exact .rparen ih

/-- A symbol and the ends of lists behind it. -/
theorem splits_atom_rparens (n : Nat) :
    Splits ('a' :: List.replicate n ')') (.atom "a" :: List.replicate n .rparen) := by
  have hword : IsWord ['a'] := ⟨List.cons_ne_nil _ _, List.forall_mem_singleton.2 (by decide)⟩
  have hends : EndsWord (List.replicate n ')') := by
    intro c hc
    obtain rfl := List.eq_of_mem_replicate (List.mem_of_mem_head? hc)
    exact .inr (.inr (.inl rfl))
  exact .atom hword hends (by simp) (splits_rparens n)

/-! ## Texts -/

/-- The reader, which has come to `r` before, fails at a place of the text. With more text at the end
it comes to the same place, and fails there unless another lexeme begins there. -/
structure FailsAt (w : String) (e : ReadError) (r : Reading) (before : List Char) (c : Char)
    (after : List Char) (token : Token) : Prop where
  text : w.toList = before ++ c :: after
  notBlank : isBlank c = false
  begins : Begins c after token
  going : r.Going
  failed : r.step ⟨utf8Sizes before, c, token⟩ = .failed e
  again : ∀ z : String, ∃ token', Begins c (after ++ z.toList) token' ∧
    (r.step ⟨utf8Sizes before, c, token'⟩ = .failed e → Term.parse (w ++ z) = .error e)

/-- An error that is no early end is found while the lexemes are read. -/
theorem foldl_step_eq_failed (h : Term.parse w = .error e) (hne : e ≠ .unexpectedEnd) :
    (lexemes w.toList).foldl Reading.step .start = .failed e := by
  rw [Term.parse, Term.ofLexemes] at h
  generalize (lexemes w.toList).foldl Reading.step .start = r at h
  cases r with
  | failed e' =>
    cases h
    rfl
  | complete t => cases h
  | expecting | closing =>
    cases h
    exact absurd rfl hne

theorem exists_failsAt (h : Term.parse w = .error e) (hne : e ≠ .unexpectedEnd) :
    ∃ r before c after token, FailsAt w e r before c after token := by
  obtain ⟨pre, l, post, hls, hgoing, hfailed⟩ :=
    Reading.exists_failed_step Reading.start_going (foldl_step_eq_failed h hne)
  obtain ⟨before, c, after, hw, hc, hpre⟩ := precedes_of_eq hls
  rw [Nat.zero_add] at hpre
  obtain ⟨token, post', hfirst, hbegins⟩ := exists_lexemesAfter_cons hc after (utf8Sizes before)
  obtain rfl : l = ⟨utf8Sizes before, c, token⟩ := by
    have hsame : pre ++ l :: post = pre ++ ⟨utf8Sizes before, c, token⟩ :: post' := by
      rw [← hls, ← hfirst, ← hpre, ← hw]
      rfl
    exact (List.cons_eq_cons.1 (List.append_cancel_left hsame)).1
  refine ⟨_, before, c, after, token, hw, hc, hbegins, hgoing, hfailed, fun z => ?_⟩
  obtain ⟨token', post₂, hfirst', hbegins'⟩ :=
    exists_lexemesAfter_cons hc (after ++ z.toList) (utf8Sizes before)
  refine ⟨token', hbegins', fun hagain => ?_⟩
  have hlexemes : lexemes (w ++ z).toList = pre ++ ⟨utf8Sizes before, c, token'⟩ :: post₂ := by
    rw [String.toList_append, hw, List.append_assoc, List.cons_append, ← hfirst', ← hpre]
    rfl
  rw [Term.parse, Term.ofLexemes, hlexemes, List.foldl_append, List.foldl_cons, hagain,
    Reading.foldl_step_failed]
  rfl

namespace FailsAt

/-- One more character behind the place decides which lexeme begins there. -/
theorem stable (h : FailsAt w e r before c after token) (hafter : after ≠ []) (z : String) :
    Term.parse (w ++ z) = .error e := by
  obtain ⟨token', hbegins, hagain⟩ := h.again z
  have hhead : (after ++ z.toList).head? = after.head? := by
    cases after with
    | nil => exact absurd rfl hafter
    | cons => rfl
  exact hagain (Reading.step_eq_failed_of_begins h.going h.begins hbegins hhead h.failed)

/-- Behind a whole term any lexeme is an error. -/
theorem stable_of_complete (h : FailsAt w e (.complete t) before c after token) (z : String) :
    Term.parse (w ++ z) = .error e := by
  obtain ⟨token', -, hagain⟩ := h.again z
  exact hagain h.failed

end FailsAt

/-- The reader goes on with what is added behind a blank, and the last word remains as it is. -/
theorem exists_parse_append {cs : List Char} {ts : List Token} (w : String) (h : Splits cs ts) :
    ∃ ls : List Lexeme, ls.map (·.token) = ts ∧ Term.parse (w ++ String.ofList (' ' :: cs)) =
      (ls.foldl Reading.step ((lexemes w.toList).foldl Reading.step .start)).finish := by
  have hblank : isBlank ' ' = true := by decide
  obtain ⟨o, ho⟩ := exists_lexemesAfter_append hblank w.toList cs 0
  refine ⟨lexemesAfter none o cs, h.map_token o, ?_⟩
  rw [Term.parse, Term.ofLexemes, String.toList_append, String.toList_ofList, ← List.foldl_append]
  exact congrArg (fun ls : List Lexeme => (ls.foldl Reading.step .start).finish) ho

/-- A text that ends too early can be completed: by a symbol where a term is missing, and by the ends
of the open lists. -/
theorem exists_completion (h : Term.parse w = .error .unexpectedEnd) :
    ∃ z t, Term.parse (w ++ z) = .ok t := by
  have hmissing : ∃ cs ts, Splits cs ts ∧
      ((lexemes w.toList).foldl Reading.step .start).Completes ts := by
    rw [Term.parse, Term.ofLexemes] at h
    cases hr : (lexemes w.toList).foldl Reading.step .start with
    | failed e =>
      rw [hr] at h
      cases h
      exact absurd hr (Reading.foldl_step_ne_unexpectedEnd _)
    | complete t =>
      rw [hr] at h
      cases h
    | closing items tail opened =>
      exact ⟨_, _, .rparen (splits_rparens _), Reading.closing_completes items tail opened⟩
    | expecting opened =>
      exact ⟨_, _, splits_atom_rparens _, Reading.expecting_completes "a" opened⟩
  obtain ⟨cs, ts, hcs, hcompletes⟩ := hmissing
  obtain ⟨ls, hls, hparse⟩ := exists_parse_append w hcs
  obtain ⟨t, ht⟩ := hcompletes ls hls
  rw [ht] at hparse
  exact ⟨_, t, hparse⟩

/-! ## The main statement -/

/-- Where the reader fails, what it says about the text is so. An unexpected lexeme begins at the
offset with the character that is given, and trailing text begins there with a character that is no
blank; a variable without a name has its comma at the offset, and behind it the end, a blank, a
parenthesis or a comma. Text that is added at the end does not change the error, if only there is one
more character behind that place, and for trailing text even if there is not. And a text that ends too
early can be completed. -/
theorem parse_error_stable (w : String) :
    (∀ found offset, Term.parse w = .error (.unexpected found offset) →
      ∃ after, StandsAt w.toList offset found after ∧
        (after ≠ [] → ∀ z, Term.parse (w ++ z) = .error (.unexpected found offset))) ∧
    (∀ offset, Term.parse w = .error (.unnamedVariable offset) →
      ∃ after, StandsAt w.toList offset ',' after ∧ EndsWord after ∧
        (after ≠ [] → ∀ z, Term.parse (w ++ z) = .error (.unnamedVariable offset))) ∧
    (∀ offset, Term.parse w = .error (.trailing offset) →
      ∃ c after, StandsAt w.toList offset c after ∧ isBlank c = false ∧
        ∀ z, Term.parse (w ++ z) = .error (.trailing offset)) ∧
    (Term.parse w = .error .unexpectedEnd → ∃ z t, Term.parse (w ++ z) = .ok t) := by
  refine ⟨fun found offset h => ?_, fun offset h => ?_, fun offset h => ?_, exists_completion⟩
  · obtain ⟨r, before, c, after, token, hfails⟩ := exists_failsAt h nofun
    rcases Reading.step_eq_failed hfails.going hfails.failed with ⟨-, h⟩ | h | ⟨-, h⟩
    · cases h
    · cases h
      exact ⟨after, ⟨before, hfails.text, rfl⟩, hfails.stable⟩
    · cases h
  · obtain ⟨r, before, c, after, token, hfails⟩ := exists_failsAt h nofun
    rcases Reading.step_eq_failed hfails.going hfails.failed with ⟨-, h⟩ | h | ⟨htoken, h⟩
    · cases h
    · cases h
    · cases h
      obtain ⟨rfl, hends⟩ := hfails.begins.bareComma.1 htoken
      exact ⟨after, ⟨before, hfails.text, rfl⟩, hends, hfails.stable⟩
  · obtain ⟨r, before, c, after, token, hfails⟩ := exists_failsAt h nofun
    rcases Reading.step_eq_failed hfails.going hfails.failed with ⟨⟨t, rfl⟩, h⟩ | h | ⟨-, h⟩
    · cases h
      exact ⟨c, after, ⟨before, hfails.text, rfl⟩, hfails.notBlank, hfails.stable_of_complete⟩
    · cases h
    · cases h

/-- Behind a letter of two bytes, a comma without a name is reported at byte 4, a second item behind a
tail at byte 14, and a parenthesis behind a term at byte 3, whatever is added at the end. The last text
is completed by a tail and by the ends of two lists. -/
theorem parse_error_stable_accented :
    (∀ z, Term.parse ("(é , x" ++ z) = .error (.unnamedVariable 4)) ∧
      (∀ z, Term.parse ("((é . b) . c d e" ++ z) = .error (.unexpected 'd' 14)) ∧
      (∀ z, Term.parse ("é )" ++ z) = .error (.trailing 3)) ∧
      ∃ z t, Term.parse ("((é ,x) . (a ." ++ z) = .ok t := by
  have hunnamed : Term.parse "(é , x" = .error (.unnamedVariable 4) := rfl
  have hunexpected : Term.parse "((é . b) . c d e" = .error (.unexpected 'd' 14) := rfl
  have htrailing : Term.parse "é )" = .error (.trailing 3) := rfl
  have hend : Term.parse "((é ,x) . (a ." = .error .unexpectedEnd := rfl
  obtain ⟨_, hcomma, -, hunnamed⟩ := (parse_error_stable _).2.1 _ hunnamed
  obtain ⟨_, hfound, hunexpected⟩ := (parse_error_stable _).1 _ _ hunexpected
  obtain ⟨_, _, -, -, htrailing⟩ := (parse_error_stable _).2.2.1 _ htrailing
  exact ⟨hunnamed (hcomma.ne_nil (by decide +kernel)),
    hunexpected (hfound.ne_nil (by decide +kernel)), htrailing, (parse_error_stable _).2.2.2 hend⟩

end Relational
