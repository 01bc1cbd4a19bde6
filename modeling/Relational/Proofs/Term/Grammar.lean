import Relational.Proofs.Term.Splitting
import Relational.Term.Reader

/-!
# The grammar of written terms

A term is written as a symbol, as a variable, or as a list of terms in parentheses, which may have a
dot and one more term before its end (`Derives`). The reader knows nothing of this: it takes one
lexeme after the other and keeps the lists that are open. What it has read so far can be told from
what it keeps (`Reading.Reads`), and each step keeps this true (`Reads.step`), so a term that comes
out has been derived. The other way round, the tokens of a derived term take the reader from before
the term to behind it, whatever lists are open (`Derives.foldl_step`).
-/

namespace Relational

/-- The tokens write the term. -/
inductive Derives : List Token → Term → Prop
  | sym (s : String) : Derives [.atom s] (.sym s)
  | var (x : String) : Derives [.var x] (.named x)
  | nil : Derives [.lparen, .rparen] .nil
  | list {parts : List (List Token × Term)} (hne : parts ≠ [])
      (h : ∀ part ∈ parts, Derives part.1 part.2) :
    Derives (.lparen :: parts.flatMap (·.1) ++ [.rparen]) (.list (parts.map (·.2)))
  | dotted {parts : List (List Token × Term)} {ts : List Token} {tail : Term} (hne : parts ≠ [])
      (h : ∀ part ∈ parts, Derives part.1 part.2) (htail : Derives ts tail) :
    Derives (.lparen :: parts.flatMap (·.1) ++ .dot :: ts ++ [.rparen])
      (.listWithTail (parts.map (·.2)) tail)

variable {parts : List (List Token × Term)} {ts us : List Token} {t : Term}
  {opened : List OpenList} {r : Reading} {ls : List Lexeme} {text : String}

theorem forall_mem_concat (h : ∀ part ∈ parts, Derives part.1 part.2) (ht : Derives ts t) :
    ∀ part ∈ parts ++ [(ts, t)], Derives part.1 part.2 :=
  List.forall_mem_append.2 ⟨h, List.forall_mem_singleton.2 ht⟩

/-- The items of a list that ends without a tail, of which there may be none. -/
theorem derives_closed (h : ∀ part ∈ parts, Derives part.1 part.2) :
    Derives (.lparen :: parts.flatMap (·.1) ++ [.rparen])
      (.ofReversed (parts.map (·.2)).reverse .nil) := by
  rw [Term.ofReversed_eq, List.reverse_reverse]
  cases parts with
  | nil => exact .nil
  | cons part parts => exact .list (by simp) h

/-! ## Soundness -/

/-- The tokens lead to the open lists: they begin them, and write the items that these have. -/
inductive Opened : List OpenList → List Token → Prop
  | none : Opened [] []
  | items {parts : List (List Token × Term)} {outer : List OpenList} {ts : List Token}
      (h : ∀ part ∈ parts, Derives part.1 part.2) (houter : Opened outer ts) :
    Opened (⟨(parts.map (·.2)).reverse, false⟩ :: outer) (ts ++ .lparen :: parts.flatMap (·.1))
  | dotted {parts : List (List Token × Term)} {outer : List OpenList} {ts : List Token}
      (hne : parts ≠ []) (h : ∀ part ∈ parts, Derives part.1 part.2) (houter : Opened outer ts) :
    Opened (⟨(parts.map (·.2)).reverse, true⟩ :: outer)
      (ts ++ .lparen :: parts.flatMap (·.1) ++ [.dot])

namespace Reading

/-- The tokens take the reader to where it is. -/
inductive Reads : Reading → List Token → Prop
  | expecting {opened : List OpenList} {ts : List Token} (h : Opened opened ts) :
    Reads (.expecting opened) ts
  | closing {parts : List (List Token × Term)} {tail : Term} {opened : List OpenList}
      {ts us : List Token} (hne : parts ≠ []) (h : ∀ part ∈ parts, Derives part.1 part.2)
      (htail : Derives us tail) (hopened : Opened opened ts) :
    Reads (.closing (parts.map (·.2)).reverse tail opened)
      (ts ++ .lparen :: parts.flatMap (·.1) ++ .dot :: us)
  | complete {t : Term} {ts : List Token} (h : Derives ts t) : Reads (.complete t) ts
  | failed (e : ReadError) (ts : List Token) : Reads (.failed e) ts

theorem Reads.deliver (hopened : Opened opened ts) (h : Derives us t) :
    Reads (deliver t opened) (ts ++ us) := by
  cases hopened with
  | none => exact .complete h
  | @items parts outer ts hparts houter =>
    have hmore := Opened.items (forall_mem_concat hparts h) houter
    rw [Reading.deliver, if_neg nofun]
    simpa using Reads.expecting hmore
  | dotted hne hparts houter =>
    rw [Reading.deliver, if_pos rfl]
    simpa using Reads.closing hne hparts h houter

/-- Where a term may come, one more lexeme takes the reader on. -/
theorem Reads.expect (h : Opened opened ts) (l : Lexeme) :
    (expect opened l).Reads (ts ++ [l.token]) := by
  obtain ⟨offset, first, token⟩ := l
  cases token with
  | lparen => exact .expecting (@Opened.items [] _ _ nofun h)
  | atom s => exact .deliver h (.sym s)
  | var x => exact .deliver h (.var x)
  | bareComma => exact .failed ..
  | rparen =>
    cases h with
    | none | dotted => exact .failed ..
    | items hparts houter =>
      rw [Reading.expect]
      simpa using Reads.deliver houter (derives_closed hparts)
  | dot =>
    cases h with
    | none => exact .failed ..
    | @dotted parts =>
      generalize (parts.map (·.2)).reverse = items
      cases items with
      | nil | cons => exact .failed ..
    | @items parts outer ts hparts houter =>
      cases hlast : (parts.map (·.2)).reverse with
      | nil => exact .failed ..
      | cons item items =>
        have hne : parts ≠ [] := by
          rintro rfl
          cases hlast
        have hdotted := Opened.dotted hne hparts houter
        rw [hlast] at hdotted
        exact .expecting hdotted

theorem Reads.step (h : r.Reads ts) (l : Lexeme) : (r.step l).Reads (ts ++ [l.token]) := by
  cases h with
  | expecting h => exact .expect h l
  | closing hne hparts htail hopened =>
    rw [Reading.step]
    split
    next hl =>
      rw [hl, Term.ofReversed_eq, List.reverse_reverse]
      simpa using Reads.deliver hopened (.dotted hne hparts htail)
    next => exact .failed ..
  | complete | failed => exact .failed ..

/-- What has been read takes the reader to where it is. -/
theorem Reads.foldl_step (h : r.Reads ts) (ls : List Lexeme) :
    (ls.foldl Reading.step r).Reads (ts ++ ls.map (·.token)) := by
  induction ls generalizing r ts with
  | nil => simpa using h
  | cons l ls ih => simpa using ih (h.step l)

end Reading

/-- A term that comes out has been derived. -/
theorem derives_of_ofLexemes (h : Term.ofLexemes ls = .ok t) : Derives (ls.map (·.token)) t := by
  have hreads := (Reading.Reads.expecting .none).foldl_step ls
  rw [List.nil_append] at hreads
  rw [Term.ofLexemes, Reading.start] at h
  generalize ls.foldl Reading.step (.expecting []) = r at h hreads
  generalize ls.map (·.token) = ts at hreads
  cases hreads with
  | complete hd =>
    cases h
    exact hd
  | expecting | closing | failed => cases h

/-! ## Completeness -/

section
variable {l : Lexeme} {outer : List OpenList} {items : List Term}

theorem step_sym {s : String} (hl : l.token = .atom s) :
    Reading.step (.expecting opened) l = .deliver (.sym s) opened := by
  simp only [Reading.step, Reading.expect, hl]

theorem step_var {x : String} (hl : l.token = .var x) :
    Reading.step (.expecting opened) l = .deliver (.named x) opened := by
  simp only [Reading.step, Reading.expect, hl, Term.named]

theorem step_lparen (hl : l.token = .lparen) :
    Reading.step (.expecting opened) l = .expecting (⟨[], false⟩ :: opened) := by
  simp only [Reading.step, Reading.expect, hl]

theorem step_rparen (hl : l.token = .rparen) :
    Reading.step (.expecting (⟨items, false⟩ :: outer)) l =
      .deliver (.listWithTail items.reverse .nil) outer := by
  simp only [Reading.step, Reading.expect, hl, Term.ofReversed_eq]

theorem step_dot (hl : l.token = .dot) (hne : items ≠ []) :
    Reading.step (.expecting (⟨items, false⟩ :: outer)) l = .expecting (⟨items, true⟩ :: outer) := by
  cases items with
  | nil => exact absurd rfl hne
  | cons => simp only [Reading.step, Reading.expect, hl]

theorem step_closing {tail : Term} (hl : l.token = .rparen) :
    Reading.step (.closing items tail outer) l =
      .deliver (.listWithTail items.reverse tail) outer := by
  rw [Reading.step, if_pos hl, Term.ofReversed_eq]

end

/-- Where each of the parts takes the reader from before its term to behind it, all of them take it
from one item of a list to a later one. -/
theorem foldl_step_items (h : ∀ part ∈ parts, ∀ opened (ls : List Lexeme),
      ls.map (·.token) = part.1 →
        ls.foldl Reading.step (.expecting opened) = Reading.deliver part.2 opened)
    (items : List Term) (outer : List OpenList) (ls : List Lexeme)
    (hls : ls.map (·.token) = parts.flatMap (·.1)) :
    ls.foldl Reading.step (.expecting (⟨items, false⟩ :: outer)) =
      .expecting (⟨(parts.map (·.2)).reverse ++ items, false⟩ :: outer) := by
  induction parts generalizing items ls with
  | nil =>
    obtain rfl := List.map_eq_nil_iff.1 hls
    rfl
  | cons part parts ih =>
    have ⟨hpart, hparts⟩ := List.forall_mem_cons.1 h
    obtain ⟨first, rest, rfl, hfirst, hrest⟩ := List.map_eq_append_iff.1 hls
    rw [List.foldl_append, hpart _ _ hfirst, Reading.deliver, if_neg nofun, ih hparts _ _ hrest]
    simp

/-- The tokens of a term take the reader from before the term to behind it. -/
theorem Derives.foldl_step (h : Derives ts t) : ∀ opened (ls : List Lexeme),
    ls.map (·.token) = ts →
      ls.foldl Reading.step (.expecting opened) = Reading.deliver t opened := by
  induction h with
  | sym s =>
    intro opened ls hls
    obtain ⟨l, rfl, hl⟩ := List.map_eq_singleton_iff.1 hls
    exact step_sym hl
  | var x =>
    intro opened ls hls
    obtain ⟨l, rfl, hl⟩ := List.map_eq_singleton_iff.1 hls
    exact step_var hl
  | nil =>
    intro opened ls hls
    obtain ⟨l, rest, rfl, hl, hrest⟩ := List.map_eq_cons_iff.1 hls
    obtain ⟨r, rfl, hr⟩ := List.map_eq_singleton_iff.1 hrest
    rw [List.foldl_cons, step_lparen hl]
    exact step_rparen hr
  | @list parts _ _ ih =>
    intro opened ls hls
    obtain ⟨l, rest, rfl, hl, hrest⟩ := List.map_eq_cons_iff.1 hls
    obtain ⟨items, last, rfl, hitems, hlast⟩ := List.map_eq_append_iff.1 hrest
    obtain ⟨r, rfl, hr⟩ := List.map_eq_singleton_iff.1 hlast
    rw [List.foldl_cons, step_lparen hl, List.foldl_append, foldl_step_items ih _ _ _ hitems,
      List.append_nil, List.foldl_cons, step_rparen hr, List.reverse_reverse]
    rfl
  | @dotted parts ts tail hne _ _ ih ihtail =>
    intro opened ls hls
    rw [List.append_assoc] at hls
    obtain ⟨l, rest, rfl, hl, hrest⟩ := List.map_eq_cons_iff.1 hls
    obtain ⟨items, rest, rfl, hitems, hrest⟩ := List.map_eq_append_iff.1 hrest
    obtain ⟨d, rest, rfl, hd, hrest⟩ := List.map_eq_cons_iff.1 hrest
    obtain ⟨us, last, rfl, hus, hlast⟩ := List.map_eq_append_iff.1 hrest
    obtain ⟨r, rfl, hr⟩ := List.map_eq_singleton_iff.1 hlast
    have hitemsNe : (parts.map (·.2)).reverse ≠ [] := by simpa using hne
    rw [List.foldl_cons, step_lparen hl, List.foldl_append, foldl_step_items ih _ _ _ hitems,
      List.append_nil, List.foldl_cons, step_dot hd hitemsNe, List.foldl_append, ihtail _ _ hus,
      Reading.deliver, if_pos rfl, List.foldl_cons, step_closing hr, List.reverse_reverse]
    rfl

/-! ## Reading -/

theorem Derives.bareComma_not_mem (h : Derives ts t) : .bareComma ∉ ts := by
  induction h with
  | sym | var | nil => simp
  | list _ _ ih => simpa using fun ts t hpart => ih (ts, t) hpart
  | dotted _ _ _ ih ihtail => simpa using ⟨fun ts t hpart => ih (ts, t) hpart, ihtail⟩

/-- The reader accepts what splits into tokens that write a term. -/
theorem parse_of_splits (hsplits : Splits text.toList ts) (h : Derives ts t) :
    Term.parse text = .ok t := by
  have ⟨hls, _⟩ := splits_iff.1 hsplits
  rw [Term.parse, Term.ofLexemes, Reading.start, h.foldl_step [] _ hls]
  rfl

/-- What the reader accepts splits into tokens that write the term. -/
theorem exists_splits_of_parse (h : Term.parse text = .ok t) :
    ∃ ts, Splits text.toList ts ∧ Derives ts t := by
  have hd := derives_of_ofLexemes h
  exact ⟨_, splits_iff.2 ⟨rfl, hd.bareComma_not_mem⟩, hd⟩

/-- The reader accepts exactly its grammar: it reads a text as a term if and only if the text splits
into tokens that write the term. -/
theorem parse_eq_ok_iff_derives (text : String) (t : Term) :
    Term.parse text = .ok t ↔ ∃ ts, Splits text.toList ts ∧ Derives ts t :=
  ⟨exists_splits_of_parse, fun ⟨_, hsplits, h⟩ => parse_of_splits hsplits h⟩

end Relational
