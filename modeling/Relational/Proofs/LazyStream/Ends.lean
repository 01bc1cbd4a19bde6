import Mathlib.Data.ENat.Lattice
import Relational.Proofs.LazyStream.Turns

/-!
# Streams that end

A stream ends after some number of forcings, with the elements that it has emitted by then
(`LazyStream.Ends`), or it never does. `forcings` is that number, and infinite for a stream without
end. Two appended streams end when both do, and the forcings of one do not save any of the other:
the numbers add up (`forcings_append`), whichever of the streams has no end.
-/

namespace Relational.LazyStream

variable {κ α : Type} {run : κ → α → Logged (LazyStream κ α)}
  {s s' t d : LazyStream κ α} {a : α} {items items' : List α} {n m : Nat} {events : List Event}

/-- The stream has these elements, in this order, and ends after so many forcings. -/
inductive Ends (run : κ → α → Logged (LazyStream κ α)) : LazyStream κ α → List α → Nat → Prop where
  | empty : Ends run empty [] 0
  | cons {a : α} {d : LazyStream κ α} {items : List α} {n : Nat} (h : Ends run d items n) :
    Ends run (cons a d) (a :: items) n
  | force {s s' : LazyStream κ α} {log : List Event} {items : List α} {n : Nat}
    (hs : s.isMature = false) (hf : s.force run = .value s' log) (h : Ends run s' items n) :
    Ends run s items (n + 1)

namespace Ends

/-- What the end of a suspended stream is, once it has been forced. -/
theorem exists_force (h : s.Ends run items n) (hs : s.isMature = false) :
    ∃ s' log m, s.force run = .value s' log ∧ n = m + 1 ∧ s'.Ends run items m := by
  cases h with
  | empty | cons => cases hs
  | force _ hf h => exact ⟨_, _, _, hf, rfl, h⟩

/-- A stream ends once, and with the same elements each time it is pulled. -/
theorem unique (h : s.Ends run items n) (h' : s.Ends run items' m) : items = items' ∧ n = m := by
  induction h generalizing items' m with
  | empty =>
    cases h' with
    | empty => exact ⟨rfl, rfl⟩
    | force hs => cases hs
  | cons h ih =>
    cases h' with
    | cons h' =>
      have ⟨hitems, hn⟩ := ih h'
      exact ⟨congrArg (_ :: ·) hitems, hn⟩
    | force hs => cases hs
  | force hs hf h ih =>
    obtain ⟨_, _, _, hf', rfl, h'⟩ := h'.exists_force hs
    rw [hf] at hf'
    cases hf'
    have ⟨hitems, hn⟩ := ih h'
    exact ⟨hitems, congrArg (· + 1) hn⟩

/-- A stream that ends does not fault. -/
theorem faultless (h : s.Ends run items n) : s.Faultless run := by
  induction h with
  | empty => exact faultless_empty
  | cons _ ih => exact faultless_cons.2 ih
  | force hs hf _ ih => exact faultless_of_value hs hf ih

end Ends

/-! ## The number of forcings -/

/-- How often a stream is forced until its end; infinitely often if it has none. -/
noncomputable def forcings (run : κ → α → Logged (LazyStream κ α)) (s : LazyStream κ α) : ℕ∞ :=
  ⨅ (n : Nat) (_ : ∃ items, s.Ends run items n), (n : ℕ∞)

theorem Ends.forcings_eq (h : s.Ends run items n) : forcings run s = n := by
  refine le_antisymm (iInf₂_le n ⟨items, h⟩) (le_iInf₂ fun m hm => ?_)
  obtain ⟨_, hm⟩ := hm
  exact le_of_eq (congrArg Nat.cast (h.unique hm).2)

theorem forcings_eq_top (h : ∀ items n, ¬ s.Ends run items n) : forcings run s = ⊤ :=
  iInf₂_eq_top.2 fun n ⟨items, hn⟩ => absurd hn (h items n)

/-- The number of forcings is finite precisely when the stream ends. -/
theorem forcings_ne_top_iff : forcings run s ≠ ⊤ ↔ ∃ items n, s.Ends run items n := by
  constructor
  · intro h
    by_contra hends
    exact h (forcings_eq_top fun items n hn => hends ⟨items, n, hn⟩)
  · rintro ⟨items, n, h⟩
    rw [h.forcings_eq]
    exact ENat.natCast_ne_top n

@[simp] theorem forcings_empty : forcings run (empty : LazyStream κ α) = 0 :=
  Ends.empty.forcings_eq

@[simp] theorem forcings_cons : forcings run (cons a d) = forcings run d := by
  by_cases h : ∃ items n, d.Ends run items n
  · obtain ⟨items, n, h⟩ := h
    rw [h.forcings_eq, h.cons.forcings_eq]
  · rw [forcings_eq_top fun items n hn => h ⟨items, n, hn⟩, forcings_eq_top fun items n hn => ?_]
    cases hn with
    | cons hn => exact h ⟨_, _, hn⟩
    | force hs => cases hs

/-- Forcing a stream leaves one forcing less to be made. -/
theorem forcings_of_value (hs : s.isMature = false) (hf : s.force run = .value s' events) :
    forcings run s = forcings run s' + 1 := by
  by_cases h : ∃ items n, s'.Ends run items n
  · obtain ⟨items, n, h⟩ := h
    rw [h.forcings_eq, (h.force hs hf).forcings_eq, Nat.cast_succ]
  · rw [forcings_eq_top (s := s') fun items n hn => h ⟨items, n, hn⟩, top_add]
    refine forcings_eq_top fun items n hn => ?_
    obtain ⟨_, _, _, hf', -, hn⟩ := hn.exists_force hs
    rw [hf] at hf'
    cases hf'
    exact h ⟨_, _, hn⟩

/-! ## Appended streams -/

/-- Two streams that end are appended to one that ends, with the elements of both. -/
theorem Ends.append (hs : s.Ends run items n) (ht : t.Ends run items' m) :
    ∃ out, out.Perm (items ++ items') ∧ (s.append t).Ends run out (n + m) := by
  -- each forcing changes the places of the two, so the induction is on the forcings of both
  induction hk : n + m using Nat.strong_induction_on generalizing s t items items' n m with
  | _ k ihk =>
    induction hs with
    | empty =>
      rw [Nat.zero_add] at hk
      exact ⟨items', .refl _, hk ▸ ht⟩
    | cons _ ih =>
      obtain ⟨out, hperm, hout⟩ := ih hk
      exact ⟨_, hperm.cons _, by rw [cons_append]; exact hout.cons⟩
    | @force s s' _ _ n hs hf h =>
      obtain ⟨out, hperm, hout⟩ := ihk (m + n) (by omega) ht h rfl
      obtain rfl : m + n + 1 = k := by omega
      refine ⟨out, hperm.trans List.perm_append_comm, ?_⟩
      rw [append_of_suspended hs]
      exact hout.force rfl (force_swap_of_value hf t)

/-- Where two appended streams end, both do. -/
theorem Ends.of_append (h : (s.append t).Ends run items n) :
    ∃ itemsₛ nₛ itemsₜ nₜ, s.Ends run itemsₛ nₛ ∧ t.Ends run itemsₜ nₜ ∧ n = nₛ + nₜ := by
  induction n using Nat.strong_induction_on generalizing s t items with
  | _ n ihn =>
    induction s using matureInduction generalizing items with
    | empty => exact ⟨[], 0, items, n, .empty, h, by omega⟩
    | cons a d ih =>
      rw [cons_append] at h
      cases h with
      | cons h =>
        obtain ⟨_, _, _, _, hd, ht, hn⟩ := ih h
        exact ⟨_, _, _, _, hd.cons, ht, hn⟩
      | force hs => cases hs
    | suspended s hs =>
      rw [append_of_suspended hs] at h
      obtain ⟨_, _, m, hforce, rfl, h⟩ := h.exists_force rfl
      cases hf : s.force run with
      | fault e =>
        rw [force_swap_of_fault hf] at hforce
        cases hforce
      | value s' log =>
        rw [force_swap_of_value hf] at hforce
        cases hforce
        obtain ⟨_, _, _, _, ht, hs', hn⟩ := ihn m (Nat.lt_succ_self m) h
        exact ⟨_, _, _, _, .force hs hf hs', ht, by omega⟩

/-- The forcings of two appended streams are those of both. -/
theorem forcings_append (s t : LazyStream κ α) :
    forcings run (s.append t) = forcings run s + forcings run t := by
  by_cases h : ∃ items n, (s.append t).Ends run items n
  · obtain ⟨items, n, h⟩ := h
    obtain ⟨_, nₛ, _, nₜ, hs, ht, rfl⟩ := h.of_append
    rw [h.forcings_eq, hs.forcings_eq, ht.forcings_eq, Nat.cast_add]
  · rw [forcings_eq_top fun items n hn => h ⟨items, n, hn⟩]
    symm
    by_contra hsum
    obtain ⟨hs, ht⟩ := not_or.1 (fun htop => hsum (ENat.add_eq_top.2 htop))
    obtain ⟨_, _, hs⟩ := forcings_ne_top_iff.1 hs
    obtain ⟨_, _, ht⟩ := forcings_ne_top_iff.1 ht
    obtain ⟨_, -, happend⟩ := hs.append ht
    exact h ⟨_, _, happend⟩

end Relational.LazyStream
