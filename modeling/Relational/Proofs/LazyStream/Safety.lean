import Relational.Proofs.LazyStream.Steps

/-!
# Safe streams

A property of elements and of the functions that a stream waits with is kept by forcing, provided
that the functions keep it (`Within.force`). The same goes for the faults: when a function can only
end in an overflow, so can every step of the stream (`Within.eq_overflow`).
-/

namespace Relational

variable {κ α β : Type}

/-- A value has the property, and a fault is an overflow. -/
def Logged.Safe (Q : α → Prop) : Logged α → Prop
  | value a _ => Q a
  | fault e => e = .overflow

theorem Logged.Safe.bind {Q : α → Prop} {R : β → Prop} {c : Logged α} {f : α → Logged β}
    (hc : c.Safe Q) (hf : ∀ a, Q a → (f a).Safe R) : (c >>= f).Safe R := by
  cases c with
  | fault e => exact hc
  | value a before =>
    have hfa := hf a hc
    rw [value_bind]
    cases hv : f a with
    | fault e => rwa [hv] at hfa
    | value b events => rwa [hv] at hfa

namespace LazyStream

variable {run : κ → α → Logged (LazyStream κ α)} {C : κ → Prop} {P : α → Prop}
  {s t : LazyStream κ α} {f : κ}

/-- The elements of the stream and those it waits with have the property `P`, and the functions it
waits with have the property `C`. -/
def Within (C : κ → Prop) (P : α → Prop) : LazyStream κ α → Prop
  | empty => True
  | cons a d => P a ∧ d.Within C P
  | delay f a => C f ∧ P a
  | swap s t => s.Within C P ∧ t.Within C P
  | bind s f => s.Within C P ∧ C f

namespace Within

theorem append (hs : s.Within C P) (ht : t.Within C P) : (s.append t).Within C P := by
  induction s using matureInduction with
  | empty => exact ht
  | cons a d ih =>
    rw [cons_append]
    exact ⟨hs.1, ih hs.2⟩
  | suspended s h =>
    rw [append_of_suspended h]
    exact ⟨ht, hs⟩

theorem appendMap {g : α → Logged (LazyStream κ α)} (hg : ∀ a, P a → (g a).Safe (Within C P))
    (hs : s.Within C P) (hf : C f) : (s.appendMap g f).Safe (Within C P) := by
  induction s using matureInduction with
  | empty => trivial
  | cons a d ih =>
    rw [appendMap_cons]
    refine (hg a hs.1).bind fun part hpart => ?_
    exact (ih hs.2).bind fun rest hrest => hpart.append hrest
  | suspended s h =>
    rw [appendMap_of_suspended g f h]
    exact ⟨hs, hf⟩

/-- Forcing keeps what the functions keep. -/
theorem force (hrun : ∀ f a, C f → P a → (run f a).Safe (Within C P)) (hs : s.Within C P) :
    (s.force run).Safe (Within C P) := by
  induction s with
  | empty => trivial
  | cons a d => exact hs
  | delay f a => exact hrun f a hs.1 hs.2
  | swap t s _ ih => exact (ih hs.2).bind fun s hs' => hs.1.append hs'
  | bind s f ih => exact (ih hs.1).bind fun s hs' => hs'.appendMap (hrun f · hs.2) hs.2

/-- The only fault in which a step can end is an overflow. -/
theorem eq_overflow (hrun : ∀ f a, C f → P a → (run f a).Safe (Within C P)) (hs : s.Within C P)
    {k : Nat} {e : Fault} (hk : stepAt run k s = some (.error e)) : e = .overflow := by
  induction k generalizing s with
  | zero =>
    induction s using matureInduction with
    | empty | cons => cases hk
    | suspended s h =>
      have hforce := hs.force hrun
      cases hf : s.force run with
      | fault e' =>
        rw [stepAt_zero_of_fault h hf] at hk
        cases hk
        rwa [hf] at hforce
      | value s' events => rw [stepAt_zero_of_value h hf] at hk; cases hk
  | succ k ih =>
    induction s using matureInduction with
    | empty => cases hk
    | cons a d => exact ih hs.2 hk
    | suspended s h =>
      have hforce := hs.force hrun
      cases hf : s.force run with
      | fault e' => rw [stepAt_succ_of_fault h hf] at hk; cases hk
      | value s' events =>
        rw [stepAt_succ_of_value h hf] at hk
        rw [hf] at hforce
        exact ih hforce hk

end Within

end LazyStream

end Relational
