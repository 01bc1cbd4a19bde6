import Relational.Proofs.Term.Errors
import Relational.Term.Descent

/-!
# Both readers agree

The reader by descent (`Cursor.termWithin`, `Cursor.listWithin`) is in the middle of some calls
where the reader of lexemes keeps a list of what is open. At a place of the text it takes what is
one lexeme for the other (`Cursor.Lexes`). So an outcome of a call can be compared with what the
reader of lexemes makes of the rest of the text (`Cursor.resume`): where the call fails, so does
that reader, and where it gives a term, that reader comes to the place behind the term with the same
term (`Cursor.Outcome`). A call is made on a shorter text, or for one item of a list at the same
place, and so two calls for each character suffice (`Cursor.readsTerm_and_readsList`). Hence the two
readers agree on every text, terms and errors alike (`Term.descend_eq`).
-/

namespace Relational

open Text (isBlank)

namespace Cursor

variable {r r' : Cursor} {c : Char} {l : Lexeme} {reading reading' : Reading} {e : ReadError}
  {next next' : Term → Reading} {call : ExceptT ReadError Option (Term × Cursor)}
  {items : List Term} {opened : List OpenList} {text : String} {n : Nat}

/-- The lexemes behind the place. -/
def lexemes (r : Cursor) : List Lexeme := lexemesAfter none r.offset r.rest

/-! ## One lexeme -/

/-- A lexeme stands at the place, and the second place is behind it. -/
structure Lexes (r : Cursor) (l : Lexeme) (r' : Cursor) : Prop where
  lexemes : r.lexemes = l :: r'.lexemes
  shorter : r'.rest.length < r.rest.length

theorem rest_of_peek (h : r.peek = some c) : ∃ rest, r.rest = c :: rest := by
  obtain ⟨offset, rest⟩ := r
  cases rest with
  | nil => cases h
  | cons d rest =>
    cases h
    exact ⟨rest, rfl⟩

theorem lexemes_of_peek_eq_none (h : r.peek = none) : r.lexemes = [] := by
  obtain ⟨offset, rest⟩ := r
  obtain rfl := List.head?_eq_none_iff.1 h
  rfl

theorem lexes_lparen (h : r.peek = some '(') : r.Lexes ⟨r.offset, '(', .lparen⟩ r.bump := by
  obtain ⟨offset, rest⟩ := r
  obtain ⟨rest, rfl⟩ := rest_of_peek h
  exact ⟨lexemesAfter_lparen, Nat.lt_succ_self _⟩

theorem lexes_rparen (h : r.peek = some ')') : r.Lexes ⟨r.offset, ')', .rparen⟩ r.bump := by
  obtain ⟨offset, rest⟩ := r
  obtain ⟨rest, rfl⟩ := rest_of_peek h
  exact ⟨lexemesAfter_rparen, Nat.lt_succ_self _⟩

/-- What stands behind a dot ends the dot as a lexeme. -/
theorem atDot_iff : r.atDot = true ↔ ∃ rest, r.rest = '.' :: rest ∧ EndsDot rest := by
  obtain ⟨offset, rest⟩ := r
  cases rest with
  | nil => simp [atDot, peek]
  | cons c rest =>
    have hrest : ∀ cs, c :: rest = '.' :: cs ↔ c = '.' ∧ cs = rest := fun cs => by
      rw [List.cons_eq_cons, eq_comm (a := rest)]
    simp [atDot, peek, bump, EndsDot, Option.all_eq_true, or_assoc, hrest, and_assoc]

theorem lexes_dot (h : r.atDot = true) : r.Lexes ⟨r.offset, '.', .dot⟩ r.bump := by
  obtain ⟨offset, rest⟩ := r
  obtain ⟨rest, rfl, hdot⟩ := atDot_iff.1 h
  have hlexemes := lexemesAfter_word (o := offset) isWord_dot hdot.endsWord
  rw [if_pos ⟨rfl, hdot⟩] at hlexemes
  exact ⟨hlexemes, Nat.lt_succ_self _⟩

theorem exists_spanFrom (cond : Char → Bool) (offset : Nat) (cs : List Char) :
    ∃ run rest, cs = run ++ rest ∧ (∀ c ∈ run, cond c = true) ∧ (∀ c ∈ rest.head?, cond c = false) ∧
      spanFrom cond offset cs = (run, ⟨offset + utf8Sizes run, rest⟩) := by
  induction cs generalizing offset with
  | nil => exact ⟨[], [], rfl, nofun, nofun, rfl⟩
  | cons c cs ih =>
    cases hc : cond c with
    | true =>
      obtain ⟨run, rest, rfl, hrun, hrest, hspan⟩ := ih (offset + c.utf8Size)
      refine ⟨c :: run, rest, rfl, List.forall_mem_cons.2 ⟨hc, hrun⟩, hrest, ?_⟩
      rw [spanFrom, if_pos hc, hspan, utf8Sizes, Nat.add_assoc]
    | false =>
      refine ⟨[], c :: cs, rfl, nofun, fun d hd => ?_, ?_⟩
      · cases hd
        exact hc
      · rw [spanFrom, hc]
        rfl

theorem endsAtom_iff : endsAtom c = true ↔ Delimits c := by
  simp [endsAtom, Delimits, or_assoc]

/-- A word is read as far as it goes. -/
theorem exists_atom (r : Cursor) : ∃ run rest, r.rest = run ++ rest ∧ (∀ c ∈ run, ¬ Delimits c) ∧
    EndsWord rest ∧ r.atom = (String.ofList run, ⟨r.offset + utf8Sizes run, rest⟩) := by
  obtain ⟨run, rest, hr, hrun, hrest, hspan⟩ := exists_spanFrom (!endsAtom ·) r.offset r.rest
  refine ⟨run, rest, hr, fun c hc => ?_, fun c hc => ?_, ?_⟩
  · rw [← endsAtom_iff]
    simpa using hrun c hc
  · rw [← endsAtom_iff]
    simpa using hrest c hc
  · rw [atom, hspan]

/-- A comma is read with the name behind it. -/
theorem lexes_comma (h : r.peek = some ',') (hatom : r.bump.atom = (text, r')) :
    r.Lexes ⟨r.offset, ',', if text = "" then .bareComma else .var text⟩ r' := by
  obtain ⟨offset, rest⟩ := r
  obtain ⟨rest, rfl⟩ := rest_of_peek h
  obtain ⟨run, behind, hrest, hrun, hends, hrun'⟩ := exists_atom (bump ⟨offset, ',' :: rest⟩)
  obtain rfl : rest = run ++ behind := hrest
  cases hatom.symm.trans hrun'
  refine ⟨(lexemesAfter_var hrun hends).trans ?_, ?_⟩
  · simp only [String.ofList_eq_empty_iff]
    rfl
  · simp only [List.length_cons, List.length_append]
    omega

/-- A character that delimits nothing is read with the word that it begins. -/
theorem lexes_word (h : r.peek = some c) (hc : ¬ Delimits c) (hdot : r.atDot = false)
    (hatom : r.atom = (text, r')) : r.Lexes ⟨r.offset, c, .atom text⟩ r' := by
  obtain ⟨run, behind, hrest, hrun, hends, hrun'⟩ := exists_atom r
  cases hatom.symm.trans hrun'
  obtain ⟨offset, rest⟩ := r
  obtain rfl : rest = run ++ behind := hrest
  cases run with
  | nil => exact absurd (hends c h) hc
  | cons d run =>
    obtain rfl : d = c := Option.some.inj h
    have hword : IsWord (d :: run) := ⟨List.cons_ne_nil _ _, hrun⟩
    have hnot : ¬ (d :: run = ['.'] ∧ EndsDot behind) := by
      rintro ⟨hrun, hbehind⟩
      cases hrun
      exact Bool.false_ne_true (hdot.symm.trans (atDot_iff.2 ⟨behind, rfl, hbehind⟩))
    have hlexemes := lexemesAfter_word (o := offset) hword hends
    rw [if_neg hnot] at hlexemes
    refine ⟨hlexemes, ?_⟩
    simp only [List.length_cons, List.length_append]
    omega

/-! ## Blanks -/

theorem lexemesAfter_blanks {run : List Char} (h : ∀ c ∈ run, isBlank c = true) (offset : Nat)
    (rest : List Char) : lexemesAfter none offset (run ++ rest) =
      lexemesAfter none (offset + utf8Sizes run) rest := by
  induction run generalizing offset with
  | nil => rfl
  | cons c run ih =>
    have ⟨hc, hrun⟩ := List.forall_mem_cons.1 h
    rw [List.cons_append, lexemesAfter_blank hc, ih hrun, utf8Sizes, Nat.add_assoc]

theorem exists_skipBlanks (r : Cursor) : ∃ run rest, r.rest = run ++ rest ∧
    (∀ c ∈ run, isBlank c = true) ∧ (∀ c ∈ rest.head?, isBlank c = false) ∧
      r.skipBlanks = ⟨r.offset + utf8Sizes run, rest⟩ := by
  obtain ⟨run, rest, hr, hrun, hrest, hspan⟩ := exists_spanFrom isBlank r.offset r.rest
  exact ⟨run, rest, hr, hrun, hrest, congrArg Prod.snd hspan⟩

/-- Blanks do not matter. -/
theorem lexemes_skipBlanks (r : Cursor) : r.skipBlanks.lexemes = r.lexemes := by
  obtain ⟨run, rest, hr, hrun, -, hskip⟩ := exists_skipBlanks r
  rw [hskip, lexemes, lexemes, hr, lexemesAfter_blanks hrun]

theorem length_skipBlanks_le (r : Cursor) : r.skipBlanks.rest.length ≤ r.rest.length := by
  obtain ⟨run, rest, hr, -, -, hskip⟩ := exists_skipBlanks r
  rw [hskip, hr, List.length_append]
  exact Nat.le_add_left ..

theorem not_isBlank_of_peek (h : r.skipBlanks.peek = some c) : isBlank c = false := by
  obtain ⟨run, rest, -, -, hrest, hskip⟩ := exists_skipBlanks r
  rw [hskip] at h
  exact hrest c h

theorem skipBlanks_of_peek (h : r.peek = some c) (hc : isBlank c = false) : r.skipBlanks = r := by
  obtain ⟨offset, rest⟩ := r
  obtain ⟨rest, rfl⟩ := rest_of_peek h
  rw [skipBlanks, spanFrom, hc]
  rfl

/-! ## The rest of a text -/

/-- What the reader of lexemes makes of the text behind the place. -/
def resume (r : Cursor) (reading : Reading) : Except ReadError Term :=
  (r.lexemes.foldl Reading.step reading).finish

theorem Lexes.resume (h : r.Lexes l r') (reading : Reading) :
    r.resume reading = r'.resume (reading.step l) := by
  rw [Cursor.resume, h.lexemes, List.foldl_cons, Cursor.resume]

theorem resume_skipBlanks (r : Cursor) (reading : Reading) :
    r.skipBlanks.resume reading = r.resume reading := by
  rw [resume, lexemes_skipBlanks, resume]

theorem resume_failed (r : Cursor) (e : ReadError) : r.resume (.failed e) = .error e := by
  rw [resume, Reading.foldl_step_failed]
  rfl

theorem resume_of_peek_eq_none (h : r.peek = none) (reading : Reading) :
    r.resume reading = reading.finish := by
  rw [resume, lexemes_of_peek_eq_none h]
  rfl

/-- Where any lexeme that can stand at the place is an error, the reader of lexemes fails. -/
theorem resume_eq_error (h : r.peek = some c) (hc : isBlank c = false)
    (hstep : ∀ token, (token = .rparen ↔ c = ')') →
      reading.step ⟨r.offset, c, token⟩ = .failed e) : r.resume reading = .error e := by
  obtain ⟨rest, hrest⟩ := rest_of_peek h
  obtain ⟨token, post, hlexemes, hbegins⟩ := exists_lexemesAfter_cons hc rest r.offset
  rw [resume, lexemes, hrest, hlexemes, List.foldl_cons, hstep token hbegins.rparen,
    Reading.foldl_step_failed]
  rfl

/-- A call that is made at the place, where the reader of lexemes would be at `reading`, has an
outcome: the term that it gives takes that reader to `next` behind the term, or that reader fails as
well. -/
inductive Outcome (r : Cursor) (reading : Reading) (next : Term → Reading) :
    ExceptT ReadError Option (Term × Cursor) → Prop
  | ok {t : Term} {r' : Cursor} (hshorter : r'.rest.length < r.rest.length)
      (h : r.resume reading = r'.resume (next t)) :
    Outcome r reading next (pure (t, r'))
  | error {e : ReadError} (h : r.resume reading = .error e) : Outcome r reading next (throw e)

namespace Outcome

/-- One call after the other. -/
theorem bind {f : Term × Cursor → ExceptT ReadError Option (Term × Cursor)}
    (h : r.Outcome reading next call) (hf : ∀ t (r' : Cursor), r'.rest.length < r.rest.length →
      r'.Outcome (next t) next' (f (t, r'))) : r.Outcome reading next' (call >>= f) := by
  cases h with
  | error h => exact .error h
  | @ok t r' hshorter h =>
    have hnext := hf t r' hshorter
    rw [pure_bind]
    generalize f (t, r') = outcome at hnext
    cases hnext with
    | error h' => exact .error (h.trans h')
    | ok hshorter' h' => exact .ok (Nat.lt_trans hshorter' hshorter) (h.trans h')

/-- A call that is made further on in the text. -/
theorem of_resume (h : r'.Outcome reading' next call) (hle : r'.rest.length ≤ r.rest.length)
    (hresume : r.resume reading = r'.resume reading') : r.Outcome reading next call := by
  cases h with
  | error h => exact .error (hresume.trans h)
  | ok hshorter h => exact .ok (Nat.lt_of_lt_of_le hshorter hle) (hresume.trans h)

theorem behind_blanks (h : r.skipBlanks.Outcome reading next call) : r.Outcome reading next call :=
  h.of_resume (length_skipBlanks_le r) (r.resume_skipBlanks _).symm

end Outcome

/-! ## Terms and lists -/

/-- The items of a list end at the place. -/
def EndsItems (r : Cursor) : Prop := r.peek = some ')' ∨ r.atDot = true

/-- Reading a term takes the reader of lexemes from before the term to behind it, whatever lists are
open, unless the end of a list stands in its place. -/
def ReadsTerm (n : Nat) (r : Cursor) : Prop :=
  ∀ opened : List OpenList, (r.skipBlanks.EndsItems → ∀ l ∈ opened.head?, l.dotted = true) →
    r.Outcome (.expecting opened) (Reading.deliver · opened) (r.termWithin n)

/-- Reading the rest of a list takes the reader of lexemes from between its items to behind the
list. -/
def ReadsList (n : Nat) (items : List Term) (r : Cursor) : Prop :=
  ∀ outer : List OpenList,
    r.Outcome (.expecting (⟨items, false⟩ :: outer)) (Reading.deliver · outer) (listWithin n items r)

/-- A lexeme that cannot stand where it stands. -/
theorem Lexes.error (h : r.Lexes l r') (hstep : reading.step l = .failed e) :
    r.Outcome reading next (throw e) :=
  .error (by rw [h.resume, hstep, resume_failed])

/-- A lexeme that is all that is missing of a term. -/
theorem Lexes.ok {t : Term} (h : r.Lexes l r') (hstep : reading.step l = next t) :
    r.Outcome reading next (pure (t, r')) :=
  .ok h.shorter (by rw [h.resume, hstep])

theorem Outcome.unexpectedEnd (h : r.peek = none) (hfinish : reading.finish = .error .unexpectedEnd) :
    r.Outcome reading next (throw .unexpectedEnd) :=
  .error (by rw [resume_of_peek_eq_none h, hfinish])

/-- Where a term has to come, neither the end of a list nor a dot can stand. -/
theorem step_expecting_eq_failed (hopened : ∀ l ∈ opened.head?, l.dotted = true) (offset : Nat)
    (c : Char) {token : Token} (htoken : token = .rparen ∨ token = .dot) :
    Reading.step (.expecting opened) ⟨offset, c, token⟩ = .failed (.unexpected c offset) := by
  rcases opened with _ | ⟨⟨items, dotted⟩, outer⟩
  · rcases htoken with rfl | rfl <;> rfl
  · obtain rfl : dotted = true := hopened _ rfl
    rcases htoken with rfl | rfl <;> cases items <;> rfl

theorem EndsItems.exists_lexes (h : r.EndsItems) (hc : r.peek = some c) :
    ∃ token r', (token = .rparen ∨ token = .dot) ∧ r.Lexes ⟨r.offset, c, token⟩ r' := by
  rcases h with hparen | hdot
  · cases hparen.symm.trans hc
    exact ⟨_, _, .inl rfl, lexes_rparen hparen⟩
  · obtain ⟨rest, hrest, -⟩ := atDot_iff.1 hdot
    obtain rfl : '.' = c := by simpa [peek, hrest] using hc
    exact ⟨_, _, .inr rfl, lexes_dot hdot⟩

/-- A term is read if the lists in it are. -/
theorem readsTerm_of_lists (r : Cursor)
    (hlist : ∀ r' : Cursor, r'.rest.length < r.rest.length → r'.ReadsList n []) :
    r.ReadsTerm (n + 1) := by
  intro opened hopened
  rw [termWithin]
  apply Outcome.behind_blanks
  have hle := length_skipBlanks_le r
  have hblank := @not_isBlank_of_peek r
  generalize r.skipBlanks = r at hopened hle hblank
  split
  next hpeek => exact .unexpectedEnd hpeek rfl
  next c hpeek =>
    split
    next hlparen =>
      have hlexes := lexes_lparen (hlparen ▸ hpeek)
      have hitems := hlist r.bump (Nat.lt_of_lt_of_le hlexes.shorter hle) opened
      exact hitems.of_resume (Nat.le_of_lt hlexes.shorter) (hlexes.resume _)
    next hlparen =>
    split
    next hends =>
      have hends : r.EndsItems := hends.imp_left fun hc : c = ')' => hc ▸ hpeek
      obtain ⟨token, r', htoken, hlexes⟩ := hends.exists_lexes hpeek
      exact hlexes.error (step_expecting_eq_failed (hopened hends) _ _ htoken)
    next hends =>
    obtain ⟨hrparen, hdot⟩ := not_or.1 hends
    split
    next hcomma =>
      split
      next name r' hatom =>
        have hlexes := lexes_comma (hcomma ▸ hpeek) hatom
        split
        next hname =>
          rw [if_pos hname] at hlexes
          exact hlexes.error rfl
        next hname =>
          rw [if_neg hname] at hlexes
          exact hlexes.ok rfl
    next hcomma =>
      split
      next text r' hatom =>
        have hc : ¬ Delimits c := by simp [Delimits, hblank hpeek, hlparen, hrparen, hcomma]
        exact (lexes_word hpeek hc (Bool.eq_false_iff.2 hdot) hatom).ok rfl

/-- Behind a tail only the end of its list can stand. -/
theorem outcome_listEnd (r : Cursor) (items : List Term) (tail : Term) (outer : List OpenList) :
    r.Outcome (.closing items tail outer) (Reading.deliver · outer) (listEnd items tail r) := by
  rw [listEnd]
  apply Outcome.behind_blanks
  have hblank := @not_isBlank_of_peek r
  generalize r.skipBlanks = r at hblank
  split
  next hpeek => exact .unexpectedEnd hpeek rfl
  next c hpeek =>
    split
    next hrparen => exact (lexes_rparen (hrparen ▸ hpeek)).ok rfl
    next hrparen =>
      exact .error (resume_eq_error hpeek (hblank hpeek) fun token htoken =>
        if_neg (mt htoken.1 hrparen))

/-- The rest of a list is read if the terms in it are, and the rest behind each of them. -/
theorem readsList_of_terms (items : List Term) (r : Cursor)
    (hterm : ∀ r' : Cursor, r'.rest.length ≤ r.rest.length → r'.ReadsTerm n)
    (hlist : ∀ items (r' : Cursor), r'.rest.length < r.rest.length → r'.ReadsList n items) :
    r.ReadsList (n + 1) items := by
  intro outer
  rw [listWithin]
  apply Outcome.behind_blanks
  have hle := length_skipBlanks_le r
  have hblank := @not_isBlank_of_peek r
  generalize r.skipBlanks = r at hle hblank
  split
  next hpeek => exact .unexpectedEnd hpeek rfl
  next c hpeek =>
    split
    next hrparen => exact (lexes_rparen (hrparen ▸ hpeek)).ok rfl
    next hrparen =>
    split
    next hdot =>
      have hlexes := lexes_dot hdot
      cases items with
      | nil => exact hlexes.error rfl
      | cons item items =>
        have htail := hterm r.bump (Nat.le_trans (Nat.le_of_lt hlexes.shorter) hle)
          (⟨item :: items, true⟩ :: outer) fun _ => by simp
        have hbehind := htail.of_resume (Nat.le_of_lt hlexes.shorter)
          (hlexes.resume (.expecting (⟨item :: items, false⟩ :: outer)))
        refine hbehind.bind fun tail r' _ => ?_
        exact outcome_listEnd r' (item :: items) tail outer
    next hdot =>
      have hends : ¬ r.skipBlanks.EndsItems := by
        rw [skipBlanks_of_peek hpeek (hblank hpeek), EndsItems, hpeek, Option.some_inj]
        exact not_or.2 ⟨hrparen, hdot⟩
      have hitem := hterm r hle (⟨items, false⟩ :: outer) fun h => absurd h hends
      refine hitem.bind fun item r' hshorter => ?_
      exact hlist (item :: items) r' (Nat.lt_of_lt_of_le hshorter hle) outer

/-- Two calls for each character suffice, and one or two more for the end of the text. -/
theorem readsTerm_and_readsList (n : Nat) :
    (∀ r : Cursor, 2 * r.rest.length + 1 ≤ n → r.ReadsTerm n) ∧
      ∀ items (r : Cursor), 2 * r.rest.length + 2 ≤ n → r.ReadsList n items := by
  induction n with
  | zero => exact ⟨nofun, nofun⟩
  | succ n ih =>
    obtain ⟨hterm, hlist⟩ := ih
    refine ⟨fun r hr => ?_, fun items r hr => ?_⟩
    · exact readsTerm_of_lists r fun r' hlt => hlist [] r' (by omega)
    · exact readsList_of_terms items r (fun r' hle => hterm r' (by omega)) fun items r' hlt =>
        hlist items r' (by omega)

end Cursor

/-- On every text the two readers agree, as soon as the reader by descent may make two calls for each
character and one more. -/
theorem Term.descend_eq (text : String) {n : Nat} (hn : 2 * text.length < n) :
    (Term.descend n text).run = some (Term.parse text) := by
  have hparse : Term.parse text = (Cursor.start text).resume .start := rfl
  have houtcome := (Cursor.readsTerm_and_readsList n).1 (Cursor.start text) hn [] nofun
  rw [hparse, Term.descend, ExceptT.run]
  generalize (Cursor.start text).termWithin n = call at houtcome
  cases houtcome with
  | error h => exact congrArg some h.symm
  | @ok t r _ h =>
    have hresume : (Cursor.start text).resume .start = r.skipBlanks.resume (.complete t) :=
      h.trans (r.resume_skipBlanks _).symm
    rw [hresume, pure_bind]
    generalize hr : r.skipBlanks = behind
    cases hpeek : behind.peek with
    | none =>
      rw [Cursor.resume_of_peek_eq_none hpeek]
      simp only [hr, hpeek]
      rfl
    | some c =>
      have htrailing : behind.resume (.complete t) = .error (.trailing behind.offset) :=
        Cursor.resume_eq_error hpeek (Cursor.not_isBlank_of_peek (hr ▸ hpeek)) fun _ _ => rfl
      rw [htrailing]
      simp only [hr, hpeek]
      rfl

end Relational
