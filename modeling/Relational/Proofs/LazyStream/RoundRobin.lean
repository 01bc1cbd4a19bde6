import Relational.Proofs.LazyStream.Ends
import Relational.Proofs.LazyStream.Pending

/-!
# The schedule of appended streams

A stream emits its elements in blocks, one before it is forced for the first time and one after each
forcing (`LazyStream.block`). Two appended streams take turns block by block: the first block of the
first stream, the first block of the second one, the second block of the first stream and so on. A
block of one stream costs a forcing for each block that the stream has emitted before, and one for
each block of the other stream before it behind which that stream has not ended. So it is known after
how many forcings a block comes, also when one of the streams ends, or when neither does
(`rounds`, `emissions_append`). All in all the forcings of both streams are made
(`append_roundRobin`).
-/

namespace Relational.LazyStream

variable {κ α β : Type} {run : κ → α → Logged (LazyStream κ α)}
  {s s' t d : LazyStream κ α} {a : α} {n i : Nat} {events : List Event}

/-! ## Blocks -/

/-- The elements before the first suspension. -/
def front : LazyStream κ α → List α
  | cons a d => a :: d.front
  | _ => []

/-- What comes behind the elements before the first suspension: the suspension, or the end. -/
def back : LazyStream κ α → LazyStream κ α
  | cons _ d => d.back
  | s => s

/-- The elements that a stream emits after exactly `i` forcings. -/
def block (run : κ → α → Logged (LazyStream κ α)) : Nat → LazyStream κ α → List α
  | 0, s => s.front
  | i + 1, s =>
    match s.back.force run with
    | .value s' _ => block run i s'
    | .fault _ => []

@[simp] theorem block_empty (i : Nat) : block run i (empty : LazyStream κ α) = [] := by
  induction i with
  | zero => rfl
  | succ i ih => exact ih

@[simp] theorem block_zero_cons (d : LazyStream κ α) :
    block run 0 (cons a d) = a :: block run 0 d := rfl

@[simp] theorem block_succ_cons (d : LazyStream κ α) :
    block run (i + 1) (cons a d) = block run (i + 1) d := rfl

theorem block_zero_of_suspended (hs : s.isMature = false) : block run 0 s = [] := by
  cases s with
  | empty | cons => cases hs
  | delay | swap | bind => rfl

theorem block_succ_of_value (hs : s.isMature = false) (hf : s.force run = .value s' events) :
    block run (i + 1) s = block run i s' := by
  cases s with
  | empty | cons => cases hs
  | delay | swap | bind => simp only [block, back, hf]

/-- What a stream emits before it is forced for the `n`-th time, each element with the number of
forcings before it. -/
def emissions (run : κ → α → Logged (LazyStream κ α)) (n : Nat) (s : LazyStream κ α) :
    List (ℕ∞ × α) :=
  (List.range n).flatMap fun i => (block run i s).map ((i : ℕ∞), ·)

/-- The first `n` blocks of each of two streams in turns, each element with the number of forcings
before it: what its own stream has been forced, and the other one as far as that can be forced. -/
noncomputable def rounds (run : κ → α → Logged (LazyStream κ α)) (n : Nat) (s t : LazyStream κ α) :
    List (ℕ∞ × α) :=
  (List.range n).flatMap fun i =>
    (block run i s).map (i + min (i : ℕ∞) (forcings run t), ·) ++
      (block run i t).map (i + min (i + 1 : ℕ∞) (forcings run s), ·)

/-! ## A step of the schedule -/

theorem emissions_cons (n : Nat) (d : LazyStream κ α) :
    emissions run (n + 1) (cons a d) = (0, a) :: emissions run (n + 1) d := by
  simp [emissions, List.range_succ_eq_map, List.flatMap_map]

theorem emissions_of_value (hs : s.isMature = false) (hf : s.force run = .value s' events)
    (n : Nat) : emissions run (n + 1) s = (emissions run n s').map (Prod.map (· + 1) id) := by
  simp [emissions, List.range_succ_eq_map, List.flatMap_map, List.map_flatMap,
    block_zero_of_suspended hs, block_succ_of_value hs hf, Function.comp_def]

theorem rounds_empty (n : Nat) (t : LazyStream κ α) : rounds run n empty t = emissions run n t := by
  simp [rounds, emissions]

theorem rounds_cons (n : Nat) (d t : LazyStream κ α) :
    rounds run (n + 1) (cons a d) t = (0, a) :: rounds run (n + 1) d t := by
  simp [rounds, List.range_succ_eq_map, List.flatMap_map]

/-- Blocks of two kinds in turns, with the turns counted from the second block on. -/
theorem flatMap_range_succ (f g : Nat → List β) (n : Nat) :
    ((List.range (n + 1)).flatMap fun i => f i ++ g i) =
      f 0 ++ ((List.range n).flatMap fun i => g i ++ f (i + 1)) ++ g n := by
  induction n with
  | zero => simp
  | succ n ih =>
    rw [List.range_succ, List.flatMap_append, ih, List.range_succ (n := n), List.flatMap_append]
    simp

/-- Forcing the first stream begins a round in which the second one comes first. -/
theorem rounds_of_value (hs : s.isMature = false) (hf : s.force run = .value s' events) (n : Nat)
    (t : LazyStream κ α) :
    rounds run (n + 1) s t = (rounds run n t s').map (Prod.map (· + 1) id) ++
      (block run n t).map (n + min (n + 1 : ℕ∞) (forcings run s), ·) := by
  have hmin : ∀ i : Nat, (i : ℕ∞) + min (i + 1 : ℕ∞) (forcings run s) =
      i + min (i : ℕ∞) (forcings run s') + 1 := fun i => by
    rw [forcings_of_value hs hf, min_add_add_right, add_assoc]
  have hnext : ∀ i : Nat, ((i + 1 : Nat) : ℕ∞) + min ((i + 1 : Nat) : ℕ∞) (forcings run t) =
      i + min (i + 1 : ℕ∞) (forcings run t) + 1 := fun i => by
    rw [Nat.cast_succ, add_right_comm]
  rw [rounds, flatMap_range_succ, block_zero_of_suspended hs, List.map_nil, List.nil_append]
  congr 1
  rw [rounds, List.map_flatMap]
  congr 1
  funext i
  rw [List.map_append, List.map_map, List.map_map, block_succ_of_value hs hf, hmin, hnext]
  rfl

/-! ## The main statement -/

theorem fst_lt_of_mem_emissions {e : ℕ∞ × α} (h : e ∈ emissions run n s) : e.1 < n := by
  obtain ⟨i, hi, he⟩ := List.mem_flatMap.1 h
  obtain ⟨b, -, rfl⟩ := List.mem_map.1 he
  exact Nat.cast_lt.2 (List.mem_range.1 hi)

/-- Before the `n`-th forcing two appended streams emit what comes in turns until then. -/
theorem emissions_append (hs : s.Faultless run) (ht : t.Faultless run) (n : Nat) :
    emissions run n (s.append t) = (rounds run n s t).filter fun e => e.1 < (n : ℕ∞) := by
  induction n generalizing s t with
  | zero => rfl
  | succ n ih =>
    induction s using matureInduction with
    | empty =>
      rw [empty_append, rounds_empty, List.filter_eq_self.2]
      exact fun e he => decide_eq_true (fst_lt_of_mem_emissions he)
    | cons a d ihd =>
      rw [cons_append, emissions_cons, ihd (faultless_cons.1 hs), rounds_cons, List.filter_cons_of_pos]
      exact decide_eq_true (by simp)
    | suspended s hsus =>
      obtain ⟨s', _, hf, hs'⟩ := hs.exists_force hsus
      -- the block of the second stream that is left over comes after too many forcings
      have hlate : ((block run n t).map ((n : ℕ∞) + min (n + 1 : ℕ∞) (forcings run s), ·)).filter
          (fun e => e.1 < ((n + 1 : Nat) : ℕ∞)) = [] := by
        refine List.filter_eq_nil_iff.2 fun e he => ?_
        obtain ⟨b, -, rfl⟩ := List.mem_map.1 he
        rw [forcings_of_value hsus hf, min_add_add_right, decide_eq_true_iff, not_lt, ← add_assoc,
          Nat.cast_succ]
        exact add_le_add_left le_self_add 1
      rw [append_of_suspended hsus, emissions_of_value rfl (force_swap_of_value hf t), ih ht hs',
        rounds_of_value hsus hf, List.filter_append, hlate, List.append_nil, List.filter_map]
      congr 1
      refine List.filter_congr fun e _ => ?_
      simp

/-- Two streams without faults are appended to one that emits the blocks of both in turns, each after
as many forcings as the schedule gives it, and that is forced as often as both together: it ends if and
only if both do. -/
theorem append_roundRobin (hs : s.Faultless run) (ht : t.Faultless run) :
    (s.append t).Faultless run ∧
      (∀ n, emissions run n (s.append t) =
        (rounds run n s t).filter fun e => e.1 < (n : ℕ∞)) ∧
      forcings run (s.append t) = forcings run s + forcings run t :=
  ⟨hs.append ht, emissions_append hs ht, forcings_append s t⟩

/-- A stream that emits 1 and 0, each after a forcing, and a stream that emits 7 after each forcing. As
long as both last, each waits for the other; the second block of the first stream is its last one, and
from then on the second stream emits after each forcing. -/
theorem append_roundRobin_countdown :
    let run : Bool → Nat → Logged (LazyStream Bool Nat) := fun forever n =>
      if forever then pure (cons n (delay true n))
      else pure (cons n (if n = 0 then empty else delay false (n - 1)))
    let s : LazyStream Bool Nat := delay false 1
    let t : LazyStream Bool Nat := delay true 7
    s.Faultless run ∧ t.Faultless run ∧ forcings run s = 2 ∧
      forcings run (s.append t) = ⊤ ∧
      ((rounds run 6 s t).filter fun e => e.1 < ((6 : Nat) : ℕ∞)) =
        [(2, 1), (3, 7), (4, 0), (4, 7), (5, 7)] := by
  intro run s t
  have hs : s.Ends run [1, 0] 2 := .force rfl rfl (.cons (.force rfl rfl (.cons .empty)))
  have hforce : t.force run = .value (cons 7 t) [] := rfl
  have ht : ∀ items n, ¬ t.Ends run items n := by
    intro items n
    induction n generalizing items with
    | zero => exact fun h => by obtain ⟨_, _, _, -, hn, -⟩ := h.exists_force rfl; cases hn
    | succ n ih =>
      intro h
      obtain ⟨_, _, m, hf, hn, h⟩ := h.exists_force rfl
      rw [hforce] at hf
      cases hf
      cases hn
      cases h with
      | cons h => exact ih _ h
      | force hs => cases hs
  have hsf : s.Faultless run := hs.faultless
  have htf : t.Faultless run := by
    have hpending : t.Pending (fun _ _ => True) [] := trivial
    refine hpending.faultless fun forever todo n _ => ?_
    cases forever <;> cases n <;> exact ⟨trivial, trivial⟩
  obtain ⟨-, hemissions, hforcings⟩ := append_roundRobin hsf htf
  refine ⟨hsf, htf, hs.forcings_eq, ?_, (hemissions 6).symm.trans rfl⟩
  rw [hforcings, forcings_eq_top ht, add_top]

end Relational.LazyStream
