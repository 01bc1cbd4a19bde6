import Relational.Proofs.Term.Grammar
import Relational.Term.Printer

/-!
# Reading what has been written

The written form of a term can be read back when its symbols and variables are spelled as words and
no symbol is a dot, and in no other case (`parse_display_iff_readable`). What is spelled as words
splits into the tokens that one expects (`splits_display`), except that the symbol `.` becomes the dot
before a tail, because a blank, a parenthesis or the end follows every symbol in a written form.
What has been read is always spelled as words, and the symbol `.` can be read only before a comma.
So that is the one place where a text is accepted and the term that it gives is not read back
(`reread_iff`).
-/

namespace Relational

open Text (isBlank)

variable {t : Term} {s : String} {cs : List Char} {ts : List Token} {text : String}

namespace Term

/-- The texts of the symbols of a term from left to right, as often as they occur. -/
def symbols : Term → List String
  | nil | var _ => []
  | sym s => [s]
  | pair a b => a.symbols ++ b.symbols

/-- All symbols and variables of the term are spelled as words. -/
structure Spelled (t : Term) : Prop where
  symbols : ∀ s ∈ t.symbols, IsWord s.toList
  vars : ∀ x ∈ t.vars, IsWord x.name.toList

/-- All symbols and variables of the term are spelled as words, and no symbol is a dot. -/
def Readable (t : Term) : Prop :=
  (∀ s ∈ t.symbols, IsWord s.toList ∧ s ≠ ".") ∧ ∀ x ∈ t.vars, IsWord x.name.toList

theorem readable_iff : t.Readable ↔ t.Spelled ∧ "." ∉ t.symbols := by
  constructor
  · rintro ⟨hsymbols, hvars⟩
    exact ⟨⟨fun s hs => (hsymbols s hs).1, hvars⟩, fun h => (hsymbols _ h).2 rfl⟩
  · rintro ⟨hspelled, hdot⟩
    exact ⟨fun s hs => ⟨hspelled.symbols s hs, ne_of_mem_of_not_mem hs hdot⟩, hspelled.vars⟩

theorem spelled_pair {a b : Term} : (pair a b).Spelled ↔ a.Spelled ∧ b.Spelled := by
  constructor
  · rintro ⟨hsymbols, hvars⟩
    simp only [symbols, vars_pair, List.forall_mem_append] at hsymbols hvars
    exact ⟨⟨hsymbols.1, hvars.1⟩, ⟨hsymbols.2, hvars.2⟩⟩
  · rintro ⟨ha, hb⟩
    exact ⟨List.forall_mem_append.2 ⟨ha.symbols, hb.symbols⟩,
      vars_pair a b ▸ List.forall_mem_append.2 ⟨ha.vars, hb.vars⟩⟩

/-- What goes through a pair component by component goes through a list item by item. -/
theorem mem_listWithTail {β : Type} {φ : Term → List β} (hφ : ∀ a b, φ (pair a b) = φ a ++ φ b)
    {x : β} {items : List Term} {tail : Term} :
    x ∈ φ (listWithTail items tail) ↔ (∃ item ∈ items, x ∈ φ item) ∨ x ∈ φ tail := by
  induction items with
  | nil => simp [listWithTail]
  | cons item items ih =>
    rw [listWithTail] at ih
    rw [listWithTail, List.foldr_cons, hφ, List.mem_append, ih]
    simp [or_assoc]

/-! ## The tokens of a written form -/

/-- The tokens of the written form of a term whose symbols and variables are spelled as words;
`inList` tells that the term follows the items of a list that is still open. -/
def tokens (inList : Bool) : Term → List Token
  | nil => if inList then [.rparen] else [.lparen, .rparen]
  | sym s => leaf inList (if s = "." then .dot else .atom s)
  | var x => leaf inList (.var x.name)
  | pair a b => (if inList then [] else [.lparen]) ++ (a.tokens false ++ b.tokens true)
where
  /-- The tokens of a term of one token. -/
  leaf (inList : Bool) (token : Token) : List Token :=
    if inList then [.dot, token, .rparen] else [token]

theorem splits_sym (hs : IsWord s.toList) (hcs : EndsDot cs) (h : Splits cs ts) :
    Splits (s.toList ++ cs) ((if s = "." then .dot else .atom s) :: ts) := by
  split
  next hdot =>
    subst hdot
    exact .dot hcs h
  next hdot =>
    have hne : ¬ (s.toList = ['.'] ∧ EndsDot cs) := fun h => hdot (String.toList_injective h.1)
    simpa using Splits.atom hs hcs.endsWord hne h

theorem splits_var {x : Var} (hx : IsWord x.name.toList) (hcs : EndsDot cs) (h : Splits cs ts) :
    Splits (x.display.toList ++ cs) (.var x.name :: ts) := by
  simpa [Var.display] using Splits.var hx hcs.endsWord h

/-- A term of one token, on its own or as the tail of a list. -/
theorem splits_leaf {token : Token} {written : List Char} (inList : Bool)
    (h : ∀ cs ts, EndsDot cs → Splits cs ts → Splits (written ++ cs) (token :: ts)) (hcs : EndsDot cs)
    (hsplits : Splits cs ts) :
    Splits ((if inList then " . ".toList ++ written ++ [')'] else written) ++ cs)
      (tokens.leaf inList token ++ ts) := by
  have hblank : isBlank ' ' = true := by decide
  cases inList with
  | false => exact h cs ts hcs hsplits
  | true =>
    have hclosed := h (')' :: cs) _ (fun c hc => by cases hc; exact .inr (.inr rfl)) (.rparen hsplits)
    have hdot : EndsDot (' ' :: (written ++ ')' :: cs)) := fun c hc => by cases hc; exact .inl hblank
    simpa [tokens.leaf] using Splits.blank hblank (.dot hdot (.blank hblank hclosed))

theorem toList_write_pair (inList : Bool) (a b : Term) :
    (write inList "" (pair a b)).toList =
      (if inList then ' ' else '(') :: ((write false "" a).toList ++ (write true "" b).toList) := by
  rw [write, write_eq true, write_eq false]
  cases inList <;> simp

/-- What goes on with a list that is still open ends a dot before it. -/
theorem endsDot_write (t : Term) (cs : List Char) : EndsDot ((write true "" t).toList ++ cs) := by
  have hblank : isBlank ' ' = true := by decide
  intro c hc
  cases t with
  | nil =>
    cases hc
    exact .inr (.inr rfl)
  | sym | var =>
    obtain rfl : c = ' ' := by simpa [write, eq_comm] using hc
    exact .inl hblank
  | pair a b =>
    rw [toList_write_pair] at hc
    cases hc
    exact .inl hblank

/-- The written form splits into its tokens, whatever ends a dot behind it. -/
theorem splits_write (h : t.Spelled) (inList : Bool) (hcs : EndsDot cs) (hsplits : Splits cs ts) :
    Splits ((write inList "" t).toList ++ cs) (t.tokens inList ++ ts) := by
  induction t generalizing inList cs ts with
  | nil =>
    cases inList with
    | false => exact .lparen (.rparen hsplits)
    | true => exact .rparen hsplits
  | sym s =>
    have hs := h.symbols s (by simp [symbols])
    have hleaf := splits_leaf inList (fun _ _ => splits_sym hs) hcs hsplits
    cases inList <;> simpa [write, tokens] using hleaf
  | var x =>
    have hx := h.vars x (by simp)
    have hleaf := splits_leaf inList (fun _ _ => splits_var hx) hcs hsplits
    cases inList <;> simpa [write, tokens] using hleaf
  | pair a b iha ihb =>
    obtain ⟨ha, hb⟩ := spelled_pair.1 h
    have hrest := iha ha false (endsDot_write b cs) (ihb hb true hcs hsplits)
    rw [toList_write_pair]
    cases inList with
    | false => simpa [tokens] using Splits.lparen hrest
    | true => simpa [tokens] using Splits.blank (by decide) hrest

/-- The written form of a term of words splits into its tokens. -/
theorem Spelled.splits_display (h : t.Spelled) : Splits t.display.toList (t.tokens false) := by
  have hend : EndsDot [] := nofun
  simpa [display] using splits_write h false hend .nil

/-! ## From tokens to terms -/

/-- Where no symbol is a dot, the tokens of a term write the term; behind the items of a list that is
still open they write the list that goes on with the term. -/
theorem derives_tokens (h : "." ∉ t.symbols) :
    Derives (t.tokens false) t ∧
      ∀ parts : List (List Token × Term), parts ≠ [] → (∀ part ∈ parts, Derives part.1 part.2) →
        Derives (.lparen :: parts.flatMap (·.1) ++ t.tokens true)
          (.listWithTail (parts.map (·.2)) t) := by
  induction t with
  | nil => exact ⟨.nil, fun parts hne hparts => .list hne hparts⟩
  | sym s =>
    have hs : s ≠ "." := by
      rintro rfl
      exact h (by simp [symbols])
    refine ⟨by simpa [tokens, tokens.leaf, hs] using Derives.sym s, fun parts hne hparts => ?_⟩
    simpa [tokens, tokens.leaf, hs] using Derives.dotted hne hparts (.sym s)
  | var x =>
    have hx : Derives [.var x.name] (.var x) := .var x.name
    refine ⟨hx, fun parts hne hparts => ?_⟩
    simpa [tokens, tokens.leaf] using Derives.dotted hne hparts hx
  | pair a b iha ihb =>
    obtain ⟨ha, hb⟩ := not_or.1 (mt List.mem_append.2 h)
    have hitem := (iha ha).1
    have hrest := (ihb hb).2
    constructor
    · simpa [tokens, listWithTail] using
        hrest [(a.tokens false, a)] (by simp) (by simpa using hitem)
    · intro parts hne hparts
      have hmore := hrest (parts ++ [(a.tokens false, a)]) (by simp) (forall_mem_concat hparts hitem)
      simpa [tokens, listWithTail] using hmore

/-- No token of a written form is the symbol `.`. -/
theorem atom_dot_not_mem_tokens (t : Term) (inList : Bool) : .atom "." ∉ t.tokens inList := by
  induction t generalizing inList with
  | nil => cases inList <;> simp [tokens]
  | sym s =>
    by_cases hs : s = "." <;> cases inList <;> simp [tokens, tokens.leaf, hs, eq_comm]
  | var x => cases inList <;> simp [tokens, tokens.leaf]
  | pair a b iha ihb => cases inList <;> simp [tokens, iha, ihb]

end Term

/-- What is gathered from the symbols and variables of a term is found in the tokens that write it,
if it is found in the tokens of these. -/
theorem Derives.token_mem {β : Type} {φ : Term → List β} {token : β → Token} (hnil : φ .nil = [])
    (hsym : ∀ s, ∀ y ∈ φ (.sym s), token y = .atom s)
    (hvar : ∀ x, ∀ y ∈ φ (.named x), token y = .var x)
    (hpair : ∀ a b, φ (.pair a b) = φ a ++ φ b) (h : Derives ts t) : ∀ y ∈ φ t, token y ∈ ts := by
  induction h with
  | sym s => exact fun y hy => List.mem_singleton.2 (hsym s y hy)
  | var x => exact fun y hy => List.mem_singleton.2 (hvar x y hy)
  | nil => simp [hnil]
  | list _ _ ih =>
    intro y hy
    rcases (Term.mem_listWithTail hpair).1 hy with ⟨item, hitem, hy⟩ | hy
    · obtain ⟨part, hpart, rfl⟩ := List.mem_map.1 hitem
      simpa using .inr (.inl ⟨part.1, ⟨part.2, hpart⟩, ih part hpart y hy⟩)
    · simp [hnil] at hy
  | dotted _ _ _ ih ihtail =>
    intro y hy
    rcases (Term.mem_listWithTail hpair).1 hy with ⟨item, hitem, hy⟩ | hy
    · obtain ⟨part, hpart, rfl⟩ := List.mem_map.1 hitem
      simpa using .inr (.inl ⟨part.1, ⟨part.2, hpart⟩, ih part hpart y hy⟩)
    · simp [ihtail y hy]

theorem Derives.atom_mem (h : Derives ts t) : ∀ s ∈ t.symbols, .atom s ∈ ts :=
  h.token_mem rfl (fun s y hy => by rw [List.mem_singleton.1 hy])
    (fun _ _ hy => absurd hy List.not_mem_nil) fun _ _ => rfl

theorem Derives.var_mem (h : Derives ts t) : ∀ x ∈ t.vars, .var x.name ∈ ts :=
  h.token_mem (β := Var) rfl (fun _ _ hy => absurd hy List.not_mem_nil)
    (fun x y hy => by rw [List.mem_singleton.1 hy]) Term.vars_pair

/-- The symbols and variables of a text that splits are words. -/
theorem Splits.isWord (h : Splits cs ts) :
    (∀ s, .atom s ∈ ts → IsWord s.toList) ∧ ∀ x, .var x ∈ ts → IsWord x.toList := by
  induction h with
  | nil => exact ⟨nofun, nofun⟩
  | blank _ _ ih => exact ih
  | lparen _ ih | rparen _ ih | dot _ _ ih => simpa using ih
  | var hn _ _ ih => exact ⟨by simpa using ih.1, by simpa [hn] using ih.2⟩
  | atom ha _ _ _ ih => exact ⟨by simpa [ha] using ih.1, by simpa using ih.2⟩

/-- The symbol `.` is a token only before a comma. -/
theorem Splits.infix_of_atom_dot (h : Splits cs ts) (hdot : .atom "." ∈ ts) :
    ['.', ','] <:+: cs := by
  induction h with
  | nil => cases hdot
  | blank _ _ ih => exact List.infix_cons (ih hdot)
  | lparen _ ih | rparen _ ih | dot _ _ ih => exact List.infix_cons (ih (by simpa using hdot))
  | @var n cs _ _ _ _ ih =>
    have hcs := ih (by simpa using hdot)
    exact List.infix_cons (hcs.trans (List.suffix_append n cs).isInfix)
  | @atom a cs _ _ hcs halone _ ih =>
    rcases List.mem_cons.1 hdot with heq | hrest
    · obtain rfl : ['.'] = a := by simpa using congrArg String.toList (Token.atom.inj heq)
      have hcomma : cs.head? = some ',' := by
        simpa [hcs.endsDot_iff] using halone
      obtain ⟨rest, rfl⟩ := List.head?_eq_some_iff.1 hcomma
      exact (List.prefix_append ['.', ','] rest).isInfix
    · exact (ih hrest).trans (List.suffix_append a cs).isInfix

theorem Term.spelled_of_parse (h : Term.parse text = .ok t) : t.Spelled := by
  obtain ⟨ts, hsplits, hd⟩ := exists_splits_of_parse h
  exact ⟨fun s hs => hsplits.isWord.1 s (hd.atom_mem s hs),
    fun x hx => hsplits.isWord.2 x.name (hd.var_mem x hx)⟩

/-- A term of words is read back if and only if none of its symbols is a dot. -/
theorem Term.Spelled.parse_display_iff (h : t.Spelled) :
    Term.parse t.display = .ok t ↔ "." ∉ t.symbols := by
  constructor
  · intro hparse hdot
    obtain ⟨ts, hsplits, hd⟩ := exists_splits_of_parse hparse
    obtain rfl : ts = t.tokens false := hsplits.unique h.splits_display
    exact atom_dot_not_mem_tokens t false (hd.atom_mem _ hdot)
  · exact fun hdot => parse_of_splits h.splits_display (derives_tokens hdot).1

/-! ## The main statements -/

/-- The written form of a term is read back if and only if the term is readable. -/
theorem parse_display_iff_readable (t : Term) : Term.parse t.display = .ok t ↔ t.Readable := by
  rw [Term.readable_iff]
  constructor
  · intro h
    have hspelled := Term.spelled_of_parse h
    exact ⟨hspelled, hspelled.parse_display_iff.1 h⟩
  · exact fun ⟨hspelled, hdot⟩ => hspelled.parse_display_iff.2 hdot

/-- A term that has been read is read back if and only if none of its symbols is a dot, and there is
such a symbol only where the text has a dot before a comma. -/
theorem reread_iff (h : Term.parse text = .ok t) :
    (Term.parse t.display = .ok t ↔ "." ∉ t.symbols) ∧
      (¬ ['.', ','] <:+: text.toList → Term.parse t.display = .ok t) := by
  have hiff := (Term.spelled_of_parse h).parse_display_iff
  refine ⟨hiff, fun htext => hiff.2 fun hdot => htext ?_⟩
  obtain ⟨ts, hsplits, hd⟩ := exists_splits_of_parse h
  exact hsplits.infix_of_atom_dot (hd.atom_mem _ hdot)

/-- Words are told apart by parentheses, commas and blanks of any kind, and a variable may be called
`.`. -/
theorem reread_iff_wide_blank :
    let t := Term.listWithTail [.sym "a", .list [.sym "b", .named "x."], .sym ".."] (.named ".")
    Term.parse "( a(b,x.)\u2003.. . ,.)" = .ok t ∧
      ¬ ['.', ','] <:+: "( a(b,x.)\u2003.. . ,.)".toList ∧ Term.parse t.display = .ok t := by
  intro t
  have h : Term.parse "( a(b,x.)\u2003.. . ,.)" = .ok t := rfl
  have htext : ¬ ['.', ','] <:+: "( a(b,x.)\u2003.. . ,.)".toList := by decide +kernel
  exact ⟨h, htext, (reread_iff h).2 htext⟩

/-- The dot in `(a .,x)` is a symbol, because a comma follows it. It is written with a blank behind
it, where it is the dot before a tail, so that another term is read back. -/
theorem not_reread_dot_before_comma :
    let t := Term.list [.sym "a", .sym ".", .named "x"]
    Term.parse "(a .,x)" = .ok t ∧ Term.parse t.display = .ok (.pair (.sym "a") (.named "x")) ∧
      Term.parse t.display ≠ .ok t :=
  ⟨rfl, rfl, nofun⟩

end Relational
