import Relational.Proofs.Store.Extension

/-!
# Bindings of bound variables

The occurs check looks for a variable where chains of bindings end, and they end at open variables. A
variable that is bound already is never found, although chains may lead through it, and a new binding
for it, which replaces the old one, can turn such a chain into a cycle (`Store.ClosesUnseen`). That is
the only way in which a cycle comes about: from an acyclic store `extend` refuses the bindings of
unbound variables that close a cycle, and gives an acyclic store unless it rebinds a variable to which
chains lead back from the new value (`Acyclic.exists_extend`). So the store of a list of bindings is
acyclic when none of them does that, and in particular when no variable has two of them
(`extend_acyclic_iff`). With two of them it need not be, and walks in it need not end
(`rebinding_closes_cycle`).
-/

namespace Relational.Store

variable {s r : Store} {x y : Var} {t : Term} {bs : List (Var × Term)}

/-- Binding the variable to the term closes a cycle that the occurs check does not see, since the
variable is bound already. -/
def ClosesUnseen (s : Store) (x : Var) (t : Term) : Prop :=
  s.lookup x ≠ none ∧ t ≠ .var x ∧ s.LeadsTo t x

/-- No binding of the list closes a cycle unseen when it is added to those behind it. -/
def ClosesNoneUnseen : List (Var × Term) → Prop
  | [] => True
  | (x, t) :: older =>
    ClosesNoneUnseen older ∧ ∀ s, ofBindings older = .ok (some s) → ¬ s.ClosesUnseen x t

/-- Binding a variable in an acyclic store has an outcome. It is refused when the variable is unbound
and the binding closes a cycle, and leads to an acyclic store unless it closes one unseen. -/
theorem Acyclic.exists_extend (hs : s.Acyclic) (x : Var) (t : Term) :
    ∃ o, s.extend x t = .ok o ∧
      (o = none ↔ s.lookup x = none ∧ t ≠ .var x ∧ s.LeadsTo t x) ∧
      ∀ r, o = some r → (r.Acyclic ↔ ¬ s.ClosesUnseen x t) := by
  rw [extend, hs.occurs_eq]
  by_cases htx : t = .var x
  · refine ⟨some s, if_pos htx, iff_of_false (fun h => nomatch h) fun h => h.2.1 htx, fun r hr => ?_⟩
    cases hr
    exact iff_of_true hs fun h => h.2.1 htx
  rw [if_neg htx]
  by_cases hocc : x ∈ (t.mapVars s.solution).vars
  · simp only [hocc, decide_true]
    refine ⟨none, rfl, iff_of_true rfl ⟨?_, htx, hs.leadsTo_of_mem_vars t hocc⟩, fun _ h => nomatch h⟩
    exact hs.unbound_of_mem_vars t x hocc
  · simp only [hocc, decide_false]
    have hbound : s.LeadsTo t x → s.lookup x ≠ none := fun h hx => hocc ((hs.leadsTo_iff hx t).1 h)
    refine ⟨some (s.push x t), rfl, iff_of_false (fun h => nomatch h) ?_, fun r hr => ?_⟩
    · exact fun ⟨hx, _, h⟩ => hbound h hx
    · cases hr
      rw [hs.push_iff]
      exact not_congr ⟨fun h => ⟨hbound h, htx, h⟩, fun h => h.2.2⟩

/-! ## Lists of bindings -/

/-- A store in which a variable has been bound has one binding more, if any. -/
theorem eq_or_eq_push_of_extend (h : s.extend x t = .ok (some r)) : r = s ∨ r = s.push x t := by
  rw [extend] at h
  split at h
  · cases h
    exact .inl rfl
  · split at h
    · cases h
    · cases h
    · cases h
      exact .inr rfl

/-- A list of bindings binds no other variables than its own. -/
theorem lookup_ofBindings_eq_none (h : ofBindings bs = .ok (some s))
    (hx : x ∉ bs.map Prod.fst) : s.lookup x = none := by
  induction bs generalizing s with
  | nil =>
    cases h
    rfl
  | cons b older ih =>
    obtain ⟨y, t⟩ := b
    rw [List.map_cons, List.mem_cons, not_or] at hx
    rw [ofBindings] at h
    split at h
    · next r hr =>
      have hrx : r.lookup x = none := ih hr hx.2
      rcases eq_or_eq_push_of_extend h with rfl | rfl
      · exact hrx
      · rw [lookup_push, if_neg hx.1, hrx]
    · next hrefused =>
      exact absurd h (hrefused s)

/-- Where no variable has two bindings, none closes a cycle unseen. -/
theorem closesNoneUnseen_of_nodup (h : (bs.map Prod.fst).Nodup) : ClosesNoneUnseen bs := by
  induction bs with
  | nil => trivial
  | cons b older ih =>
    have ⟨hb, hnodup⟩ := List.nodup_cons.1 h
    exact ⟨ih hnodup, fun s hs hunseen => hunseen.1 (lookup_ofBindings_eq_none hs hb)⟩

/-- A list of bindings that close no cycle unseen has an outcome, and its store is acyclic. -/
theorem ClosesNoneUnseen.exists_ofBindings (h : ClosesNoneUnseen bs) :
    ∃ o, ofBindings bs = .ok o ∧ ∀ s, o = some s → s.Acyclic := by
  induction bs with
  | nil => exact ⟨some empty, rfl, fun s hs => by cases hs; exact acyclic_empty⟩
  | cons b older ih =>
    obtain ⟨o, ho, hacyclic⟩ := ih h.1
    rw [ofBindings, ho]
    cases o with
    | none => exact ⟨none, rfl, fun _ hs => nomatch hs⟩
    | some s =>
      obtain ⟨o', ho', -, hiff⟩ := (hacyclic s rfl).exists_extend b.1 b.2
      exact ⟨o', ho', fun r hr => (hiff r hr).2 (h.2 s ho)⟩

/-! ## The main statement -/

/-- Binding a variable in an acyclic store is refused when the variable is unbound and the binding
closes a cycle, and else leads to a store that is acyclic precisely when the binding closes no cycle
unseen. A list of bindings that close none unseen, as those of a list without two bindings of one
variable, is refused or has an acyclic store, in which all walks end. -/
theorem extend_acyclic_iff (hs : s.Acyclic) (x : Var) (t : Term) :
    (∃ o, s.extend x t = .ok o ∧
      (o = none ↔ s.lookup x = none ∧ t ≠ .var x ∧ s.LeadsTo t x) ∧
      ∀ r, o = some r → (r.Acyclic ↔ ¬ s.ClosesUnseen x t)) ∧
    (∀ bs, ClosesNoneUnseen bs → ∃ o, ofBindings bs = .ok o ∧
      ∀ r, o = some r → r.Acyclic ∧ ∀ t, ∃ a, r.walk t = .ok a ∧ r.WalksTo t a) ∧
    ∀ bs : List (Var × Term), (bs.map Prod.fst).Nodup → ClosesNoneUnseen bs := by
  refine ⟨hs.exists_extend x t, fun bs hbs => ?_, fun bs => closesNoneUnseen_of_nodup⟩
  obtain ⟨o, ho, hacyclic⟩ := hbs.exists_ofBindings
  exact ⟨o, ho, fun r hr => ⟨hacyclic r hr, (hacyclic r hr).walk_eq⟩⟩

/-- Where `y` is bound to `,x` and `x` to `a`, binding `x` once more, to `,z`, closes no cycle, because
no chain leads from `,z` to `x`. The three bindings have an acyclic store, and a walk from `,y` ends in
it, at `,z`. -/
theorem extend_acyclic_iff_rebound :
    let s := (empty.push ⟨"x"⟩ (.sym "a")).push ⟨"y"⟩ (.named "x")
    let bs := [(⟨"x"⟩, .named "z"), (⟨"y"⟩, .named "x"), (⟨"x"⟩, .sym "a")]
    s.Acyclic ∧ s.extend ⟨"x"⟩ (.named "z") = .ok (some (s.push ⟨"x"⟩ (.named "z"))) ∧
      (s.push ⟨"x"⟩ (.named "z")).Acyclic ∧
      ClosesNoneUnseen bs ∧ ofBindings bs = .ok (some (s.push ⟨"x"⟩ (.named "z"))) ∧
      (s.push ⟨"x"⟩ (.named "z")).WalksTo (.named "y") (.named "z") := by
  intro s bs
  have hs : s.Acyclic := (acyclic_empty.push rfl (by decide)).push rfl (by decide +kernel)
  obtain ⟨⟨o, ho, -, hiff⟩, hlist, hnodup⟩ := extend_acyclic_iff hs ⟨"x"⟩ (.named "z")
  have hseen : ¬ s.ClosesUnseen ⟨"x"⟩ (.named "z") := by
    rintro ⟨-, -, z, hz, hzx⟩
    obtain rfl : z = ⟨"z"⟩ := List.mem_singleton.1 hz
    rcases hzx.cases_head with h | ⟨_, ⟨u, hu, -⟩, -⟩
    · exact absurd h (by decide)
    · cases hu
  have hbinds : s.extend ⟨"x"⟩ (.named "z") = .ok (some (s.push ⟨"x"⟩ (.named "z"))) := by
    decide +kernel
  rw [hbinds] at ho
  cases ho
  have hofBindings : ofBindings bs.tail = .ok (some s) := by decide +kernel
  have hbs : ClosesNoneUnseen bs := by
    refine ⟨hnodup bs.tail (by decide), fun q hq => ?_⟩
    cases hofBindings.symm.trans hq
    exact hseen
  have hall : ofBindings bs = .ok (some (s.push ⟨"x"⟩ (.named "z"))) := by decide +kernel
  obtain ⟨o, ho, hwalks⟩ := hlist bs hbs
  rw [hall] at ho
  cases ho
  obtain ⟨a, ha, hwalk⟩ := (hwalks _ rfl).2 (.named "y")
  have hend : (s.push ⟨"x"⟩ (.named "z")).walk (.named "y") = .ok (.named "z") := by decide +kernel
  rw [hend] at ha
  cases ha
  exact ⟨hs, hbinds, (hiff _ rfl).2 hseen, hbs, hall, hwalk⟩

/-- Where `y` is bound to `,x` and `x` to `a`, binding `x` once more, to `,y`, is not refused, although
it closes a cycle. The three bindings have a store too, and in it no budget suffices for a walk from
`,x`. -/
theorem rebinding_closes_cycle :
    let s := (empty.push ⟨"x"⟩ (.sym "a")).push ⟨"y"⟩ (.named "x")
    let r := s.push ⟨"x"⟩ (.named "y")
    s.Acyclic ∧ s.extend ⟨"x"⟩ (.named "y") = .ok (some r) ∧ ¬ r.Acyclic ∧
      ofBindings [(⟨"x"⟩, .named "y"), (⟨"y"⟩, .named "x"), (⟨"x"⟩, .sym "a")] = .ok (some r) ∧
      ∀ n, r.walkWithin n (.named "x") = .error .unending := by
  intro s r
  have hs : s.Acyclic := (acyclic_empty.push rfl (by decide)).push rfl (by decide +kernel)
  have hxy : r.Mentions ⟨"x"⟩ ⟨"y"⟩ := ⟨.named "y", rfl, by decide⟩
  have hyx : r.Mentions ⟨"y"⟩ ⟨"x"⟩ := ⟨.named "x", rfl, by decide⟩
  refine ⟨hs, by decide +kernel, fun hr => hr _ (.tail (.single hxy) hyx), by decide +kernel, ?_⟩
  have hwalks : ∀ n, r.walkWithin n (.named "x") = .error .unending ∧
      r.walkWithin n (.named "y") = .error .unending := by
    intro n
    induction n with
    | zero => exact ⟨rfl, rfl⟩
    | succ n ih => exact ⟨ih.2, ih.1⟩
  exact fun n => (hwalks n).1

end Relational.Store
