import Mathlib.Data.Sum.Order
import Relational.Proofs.LazyStream.Steps

/-!
# Appending in turns

Every step of two appended streams is a step of one of the two, and `turn` says of which one: the
first stream goes on until it has been forced, then the operands change places. The steps of each
operand are made in their order (`le_of_turn_le`), and none is made twice (`turn_injective`). What
happens at a step is what happens in the operand (`stepAt_append`), and every step of either operand
is reached, if no step ends in a fault (`exists_turn_inl`, `exists_turn_inr`): no operand keeps the
other waiting for ever.
-/

namespace Relational.LazyStream

variable {κ α : Type} {run : κ → α → Logged (LazyStream κ α)}

/-- Which step of which operand is made at a step of two appended streams. -/
def turn (run : κ → α → Logged (LazyStream κ α)) :
    Nat → LazyStream κ α → LazyStream κ α → Nat ⊕ Nat
  | k, empty, _ => .inr k
  | 0, _, _ => .inl 0
  | k + 1, cons _ d, t => (turn run k d t).map (· + 1) id
  | k + 1, s, t =>
    match s.force run with
    | .value s _ => (turn run k t s).swap.map (· + 1) id
    | .fault _ => .inl (k + 1)

variable {s s' t : LazyStream κ α} {k i j : Nat} {a : α} {e : Fault} {events : List Event}

/-! ## Equations -/

@[simp] theorem turn_empty (t : LazyStream κ α) : turn run k empty t = .inr k := by
  cases k <;> rfl

@[simp] theorem turn_cons_zero (d t : LazyStream κ α) : turn run 0 (cons a d) t = .inl 0 := rfl

@[simp] theorem turn_cons_succ (d t : LazyStream κ α) :
    turn run (k + 1) (cons a d) t = (turn run k d t).map (· + 1) id := rfl

theorem turn_zero_of_suspended (h : s.isMature = false) (t : LazyStream κ α) :
    turn run 0 s t = .inl 0 := by
  cases s with
  | empty | cons => cases h
  | delay | swap | bind => rfl

theorem turn_succ_of_value (h : s.isMature = false) (hf : s.force run = .value s' events)
    (t : LazyStream κ α) : turn run (k + 1) s t = (turn run k t s').swap.map (· + 1) id := by
  cases s with
  | empty | cons => cases h
  | delay | swap | bind => simp only [turn, hf]

theorem turn_succ_of_fault (h : s.isMature = false) (hf : s.force run = .fault e)
    (t : LazyStream κ α) : turn run (k + 1) s t = .inl (k + 1) := by
  cases s with
  | empty | cons => cases h
  | delay | swap | bind => simp only [turn, hf]

/-- Forcing appended streams forces the suspended one and changes the places. -/
theorem force_swap_of_value (hf : s.force run = .value s' events) (t : LazyStream κ α) :
    (swap t s).force run = .value (t.append s') events := by
  simp only [force, hf, Logged.value_bind, Logged.pure_eq, Logged.after, List.append_nil]

theorem force_swap_of_fault (hf : s.force run = .fault e) (t : LazyStream κ α) :
    (swap t s).force run = .fault e := by
  simp only [force, hf, Logged.fault_bind]

/-! ## Where the steps come from -/

/-- What happens at a step of two appended streams happens at the step of the operand. -/
theorem stepAt_append (k : Nat) (s t : LazyStream κ α) :
    stepAt run k (s.append t) = Sum.elim (stepAt run · s) (stepAt run · t) (turn run k s t) := by
  induction k generalizing s t with
  | zero =>
    induction s using matureInduction with
    | empty => simp
    | cons a d => simp
    | suspended s h =>
      rw [append_of_suspended h, turn_zero_of_suspended h, Sum.elim_inl]
      cases hf : s.force run with
      | fault e =>
        rw [stepAt_zero_of_fault h hf, stepAt_zero_of_fault rfl (force_swap_of_fault hf t)]
      | value s' events =>
        rw [stepAt_zero_of_value h hf, stepAt_zero_of_value rfl (force_swap_of_value hf t)]
  | succ k ih =>
    induction s using matureInduction with
    | empty => simp
    | cons a d =>
      rw [cons_append, stepAt_cons_succ, ih, turn_cons_succ]
      cases turn run k d t <;> rfl
    | suspended s h =>
      rw [append_of_suspended h]
      cases hf : s.force run with
      | fault e =>
        rw [turn_succ_of_fault h hf, Sum.elim_inl, stepAt_succ_of_fault h hf,
          stepAt_succ_of_fault rfl (force_swap_of_fault hf t)]
      | value s' events =>
        rw [stepAt_succ_of_value rfl (force_swap_of_value hf t), ih, turn_succ_of_value h hf]
        cases turn run k t s' with
        | inl j => rfl
        | inr i => exact (stepAt_succ_of_value h hf).symm

theorem stepAt_append_of_inl (h : turn run k s t = .inl i) :
    stepAt run k (s.append t) = stepAt run i s := by
  rw [stepAt_append, h, Sum.elim_inl]

theorem stepAt_append_of_inr (h : turn run k s t = .inr j) :
    stepAt run k (s.append t) = stepAt run j t := by
  rw [stepAt_append, h, Sum.elim_inr]

/-- Two streams that do not fault are appended to one that does not. -/
theorem Faultless.append (hs : s.Faultless run) (ht : t.Faultless run) :
    (s.append t).Faultless run := by
  intro k e hk
  cases hturn : turn run k s t with
  | inl i => exact hs i e (stepAt_append_of_inl hturn ▸ hk)
  | inr j => exact ht j e (stepAt_append_of_inr hturn ▸ hk)

/-- Counting the steps of the first operand from the next one on keeps their order. -/
theorem map_succ_le_iff {x y : Nat ⊕ Nat} : x.map (· + 1) id ≤ y.map (· + 1) id ↔ x ≤ y := by
  cases x <;> cases y <;> simp

/-- The first step is not made after another one of the same operand. -/
theorem not_turn_succ_le_turn_zero (k : Nat) (s t : LazyStream κ α) :
    ¬ turn run (k + 1) s t ≤ turn run 0 s t := by
  have hmap : ∀ x : Nat ⊕ Nat, ¬ x.map (· + 1) id ≤ .inl 0 := fun x => by cases x <;> simp
  induction s using matureInduction with
  | empty => simp
  | cons a d => exact hmap _
  | suspended s hs =>
    rw [turn_zero_of_suspended hs]
    cases hf : s.force run with
    | fault e => simp [turn_succ_of_fault hs hf]
    | value s' events =>
      rw [turn_succ_of_value hs hf]
      exact hmap _

/-- The steps of each operand are made in their order. -/
theorem le_of_turn_le {k' : Nat} (s t : LazyStream κ α) (h : turn run k s t ≤ turn run k' s t) :
    k ≤ k' := by
  induction k generalizing k' s t with
  | zero => exact Nat.zero_le k'
  | succ k ih =>
    cases k' with
    | zero => exact absurd h (not_turn_succ_le_turn_zero k s t)
    | succ k' =>
      induction s using matureInduction with
      | empty => simpa using h
      | cons a d => exact Nat.succ_le_succ (ih d t (map_succ_le_iff.1 h))
      | suspended s hs =>
        cases hf : s.force run with
        | fault e =>
          rw [turn_succ_of_fault hs hf, turn_succ_of_fault hs hf] at h
          exact Sum.inl_le_inl_iff.1 h
        | value s' events =>
          rw [turn_succ_of_value hs hf, turn_succ_of_value hs hf, map_succ_le_iff,
            Sum.swap_le_swap_iff] at h
          exact Nat.succ_le_succ (ih t s' h)

/-- No step of an operand is made twice. -/
theorem turn_injective {k' : Nat} (s t : LazyStream κ α) (h : turn run k s t = turn run k' s t) :
    k = k' :=
  Nat.le_antisymm (le_of_turn_le s t (le_of_eq h)) (le_of_turn_le s t (le_of_eq h.symm))

/-! ## How often the operands are forced -/

/-- An operand has not been forced more often than the two appended streams. -/
theorem forced_turn_le (run : κ → α → Logged (LazyStream κ α)) (k : Nat) (s t : LazyStream κ α) :
    Sum.elim (forced run · s) (forced run · t) (turn run k s t) ≤ forced run k (s.append t) := by
  induction k generalizing s t with
  | zero =>
    induction s using matureInduction with
    | empty => simp
    | cons a d => simp
    | suspended s h => simp [turn_zero_of_suspended h]
  | succ k ih =>
    induction s using matureInduction with
    | empty => simp
    | cons a d =>
      have hd := ih d t
      rw [cons_append, turn_cons_succ, forced_cons_succ]
      cases hturn : turn run k d t with
      | inl i => rwa [hturn] at hd
      | inr j => rwa [hturn] at hd
    | suspended s h =>
      rw [append_of_suspended h]
      cases hf : s.force run with
      | fault e => simp [turn_succ_of_fault h hf, forced_succ_of_fault h hf]
      | value s' events =>
        have ht := ih t s'
        rw [turn_succ_of_value h hf, forced_succ_of_value rfl (force_swap_of_value hf t)]
        cases hturn : turn run k t s' with
        | inl j =>
          rw [hturn, Sum.elim_inl] at ht
          exact Nat.le_succ_of_le ht
        | inr i =>
          rw [hturn, Sum.elim_inr] at ht
          refine Nat.le_trans (Nat.le_of_eq (forced_succ_of_value h hf)) ?_
          exact Nat.succ_le_succ ht

theorem forced_le_of_turn_inl (h : turn run k s t = .inl i) :
    forced run i s ≤ forced run k (s.append t) := by
  have hle := forced_turn_le run k s t
  rwa [h] at hle

theorem forced_le_of_turn_inr (h : turn run k s t = .inr j) :
    forced run j t ≤ forced run k (s.append t) := by
  have hle := forced_turn_le run k s t
  rwa [h] at hle

/-! ## Fairness -/

theorem exists_force_of_append (h : s.isMature = false) (hst : (s.append t).Faultless run) :
    ∃ s' events, s.force run = .value s' events ∧ (t.append s').Faultless run := by
  rw [append_of_suspended h] at hst
  obtain ⟨r, _, hr, hfaultless⟩ := hst.exists_force rfl
  cases hf : s.force run with
  | fault e =>
    rw [force_swap_of_fault hf] at hr
    cases hr
  | value s' events =>
    rw [force_swap_of_value hf] at hr
    cases hr
    exact ⟨s', _, rfl, hfaultless⟩

/-- If every operand that comes first gets to its step, so does every operand that comes second. -/
theorem exists_turn_inr_of_inl
    (hinl : ∀ s t : LazyStream κ α, (s.append t).Faultless run → Active run i s →
      ∃ k, turn run k s t = .inl i)
    (hst : (s.append t).Faultless run) (ht : Active run i t) : ∃ k, turn run k s t = .inr i := by
  induction s using matureInduction with
  | empty => exact ⟨i, turn_empty t⟩
  | cons a d ih =>
    rw [cons_append, faultless_cons] at hst
    obtain ⟨k, hk⟩ := ih hst
    exact ⟨k + 1, by rw [turn_cons_succ, hk]; rfl⟩
  | suspended s h =>
    obtain ⟨s', _, hf, hts⟩ := exists_force_of_append h hst
    obtain ⟨k, hk⟩ := hinl t s' hts ht
    exact ⟨k + 1, by rw [turn_succ_of_value h hf, hk]; rfl⟩

/-- Every step of the first operand is made in its turn. -/
theorem exists_turn_inl (hst : (s.append t).Faultless run) (hs : Active run i s) :
    ∃ k, turn run k s t = .inl i := by
  induction i generalizing s t with
  | zero =>
    cases s with
    | empty => exact absurd hs not_active_empty
    | cons | delay | swap | bind => exact ⟨0, rfl⟩
  | succ i ih =>
    induction s using matureInduction with
    | empty => exact absurd hs not_active_empty
    | cons a d =>
      rw [cons_append, faultless_cons] at hst
      obtain ⟨k, hk⟩ := ih hst hs
      exact ⟨k + 1, by rw [turn_cons_succ, hk]; rfl⟩
    | suspended s h =>
      obtain ⟨s', _, hf, hts⟩ := exists_force_of_append h hst
      rw [Active, stepAt_succ_of_value h hf] at hs
      obtain ⟨k, hk⟩ := exists_turn_inr_of_inl (fun _ _ => ih) hts hs
      exact ⟨k + 1, by rw [turn_succ_of_value h hf, hk]; rfl⟩

/-- Every step of the second operand is made in its turn. -/
theorem exists_turn_inr (hst : (s.append t).Faultless run) (ht : Active run i t) :
    ∃ k, turn run k s t = .inr i :=
  exists_turn_inr_of_inl (fun _ _ => exists_turn_inl) hst ht

/-- Where two appended streams do not fault, neither does the first. -/
theorem Faultless.of_append_left (hst : (s.append t).Faultless run) : s.Faultless run := by
  intro i e hi
  obtain ⟨k, hk⟩ := exists_turn_inl hst (active_of_error hi)
  exact hst k e (by rw [stepAt_append_of_inl hk, hi])

/-- Where two appended streams do not fault, neither does the second. -/
theorem Faultless.of_append_right (hst : (s.append t).Faultless run) : t.Faultless run := by
  intro i e hi
  obtain ⟨k, hk⟩ := exists_turn_inr hst (active_of_error hi)
  exact hst k e (by rw [stepAt_append_of_inr hk, hi])

end Relational.LazyStream
