import Relational.Proofs.LazyStream.Budget

/-!
# What the loops pull

How far a stream is pulled depends on a limit alone: element by element until the limit is reached or
the stream is at its end, and each suspension that comes before is forced (`LazyStream.Pulled`). The
steps of the stream say what that gives (`pulled_of_trace`). Both loops that pull do just this,
the one that collects elements and counts its forcings (`Pulled.exists_collect`, `pulled_of_collect`)
and the one that goes from one element to the next (`Pulled.exists_take`, `exists_pulled_of_take`), so
they agree on every stream (`loops_agree`). With a larger limit the same elements come first
(`Pulled.initial`).
-/

namespace Relational

namespace Limit

/-- What is left of a limit when some elements have been produced. -/
def less : Limit → Nat → Limit
  | all, _ => all
  | atMost n, k => atMost (n - k)

@[simp] theorem less_zero (limit : Limit) : limit.less 0 = limit := by
  cases limit <;> rfl

theorem less_less (limit : Limit) (j k : Nat) : (limit.less j).less k = limit.less (j + k) := by
  cases limit with
  | all => rfl
  | atMost n => rw [less, less, less, Nat.sub_sub]

theorem isReached_less (limit : Limit) (j k : Nat) :
    (limit.less j).isReached k = limit.isReached (j + k) := by
  cases limit with
  | all => rfl
  | atMost n =>
    have hiff : n - j ≤ k ↔ n ≤ j + k := by omega
    exact decide_eq_decide.2 hiff

/-- What is left of a limit is nothing when the limit is reached. -/
theorem isReached_less_zero (limit : Limit) (k : Nat) :
    (limit.less k).isReached 0 = limit.isReached k := limit.isReached_less k 0

theorem isReached_eq_false {limit limit' : Limit} {k : Nat}
    (hle : ∀ k, limit'.isReached k = true → limit.isReached k = true)
    (h : limit.isReached k = false) : limit'.isReached k = false := by
  cases h' : limit'.isReached k with
  | false => rfl
  | true =>
    rw [hle k h'] at h
    cases h

end Limit

namespace LazyStream

open Logged

variable {κ α : Type} {run : κ → α → Logged (LazyStream κ α)} {limit limit' : Limit}
  {s s' : LazyStream κ α} {a : α} {items items' : List α} {n m k : Nat} {events : List Event}

/-! ## Elements among steps -/

namespace Step

/-- The element that is emitted at a step. -/
def element? : Step α → Option α
  | .emit a => some a
  | _ => none

/-- The elements that are emitted at the steps. -/
def elements (steps : List (Step α)) : List α := steps.filterMap element?

/-- How many of the steps are forcings that come before `n` elements have been emitted. -/
def forcedFor : Nat → List (Step α) → Nat
  | 0, _ | _, [] => 0
  | n + 1, .force :: steps => forcedFor (n + 1) steps + 1
  | n + 1, .emit _ :: steps => forcedFor n steps
  | n + 1, .stop :: steps => forcedFor (n + 1) steps

@[simp] theorem elements_nil : elements ([] : List (Step α)) = [] := rfl
@[simp] theorem elements_force (steps : List (Step α)) : elements (.force :: steps) = elements steps :=
  rfl
@[simp] theorem elements_emit (a : α) (steps : List (Step α)) :
    elements (.emit a :: steps) = a :: elements steps := rfl
@[simp] theorem elements_stop (steps : List (Step α)) : elements (.stop :: steps) = elements steps :=
  rfl

theorem forcedFor_zero (steps : List (Step α)) : forcedFor 0 steps = 0 := by
  cases steps <;> rfl

theorem emit_mem_of_mem_elements {steps : List (Step α)} (h : a ∈ elements steps) :
    .emit a ∈ steps := by
  obtain ⟨step, hmem, hstep⟩ := List.mem_filterMap.1 h
  cases step with
  | emit b => cases hstep; exact hmem
  | force | stop => cases hstep

end Step

/-! ## Pulling up to a limit -/

/-- Up to the limit the stream has these elements, and so many suspensions come before the last of
them, or before the end where the limit is not reached. -/
inductive Pulled (run : κ → α → Logged (LazyStream κ α)) :
    Limit → LazyStream κ α → List α → Nat → Prop
  | reached {limit : Limit} {s : LazyStream κ α} (h : limit.isReached 0 = true) :
    Pulled run limit s [] 0
  | stop {limit : Limit} : Pulled run limit empty [] 0
  | cons {limit : Limit} {a : α} {d : LazyStream κ α} {items : List α} {n : Nat}
    (h : limit.isReached 0 = false) (hd : Pulled run (limit.less 1) d items n) :
    Pulled run limit (cons a d) (a :: items) n
  | force {limit : Limit} {s s' : LazyStream κ α} {log : List Event} {items : List α} {n : Nat}
    (h : limit.isReached 0 = false) (hs : s.isMature = false) (hf : s.force run = .value s' log)
    (hs' : Pulled run limit s' items n) : Pulled run limit s items (n + 1)

/-- Steps with enough elements among them, or with the end, say what is pulled. -/
theorem pulled_of_trace {steps : List (Step α)} (h : s.trace run k = .value steps events)
    (hn : n ≤ (Step.elements steps).length ∨ .stop ∈ steps) :
    Pulled run (.atMost n) s ((Step.elements steps).take n) (Step.forcedFor n steps) := by
  induction k generalizing s n steps events with
  | zero =>
    rw [trace_zero, pure_eq] at h
    cases h
    obtain rfl : n = 0 := by simpa using hn
    exact .reached rfl
  | succ k ih =>
    cases n with
    | zero =>
      rw [List.take_zero, Step.forcedFor_zero]
      exact .reached rfl
    | succ n =>
      induction s using matureInduction with
      | empty =>
        rw [trace_empty, pure_eq] at h
        cases h
        exact .stop
      | cons b d =>
        rw [trace_cons] at h
        obtain ⟨rest, log, hrest, rfl⟩ := map_eq_value_iff.1 ⟨events, h⟩
        exact .cons rfl (ih hrest (by simpa using hn))
      | suspended s hs =>
        rw [trace_of_suspended run k hs] at h
        obtain ⟨s', _, _, hf, htrace⟩ := bind_eq_value_iff.1 ⟨events, h⟩
        obtain ⟨rest, log, hrest, rfl⟩ := map_eq_value_iff.1 ⟨_, htrace⟩
        exact .force rfl hs hf (ih hrest (by simpa using hn))

namespace Pulled

/-- What the pull of a suspended stream is, once it has been forced. -/
theorem exists_force (h : Pulled run limit s items n) (hlimit : limit.isReached 0 = false)
    (hs : s.isMature = false) : ∃ s' log m, s.force run = .value s' log ∧ n = m + 1 ∧
      Pulled run limit s' items m := by
  cases h with
  | reached h => rw [hlimit] at h; cases h
  | stop | cons => cases hs
  | force _ _ hf hs' => exact ⟨_, _, _, hf, rfl, hs'⟩

/-- With a larger limit the same elements come first. -/
theorem initial (h : Pulled run limit s items n) (h' : Pulled run limit' s items' m)
    (hle : ∀ k, limit'.isReached k = true → limit.isReached k = true) : items <+: items' := by
  induction h generalizing limit' items' m with
  | reached | stop => exact List.nil_prefix
  | cons hlimit _ ih =>
    cases h' with
    | reached h => rw [Limit.isReached_eq_false hle hlimit] at h; cases h
    | cons _ hd' =>
      refine List.cons_prefix_cons.2 ⟨rfl, ih hd' fun k hk => ?_⟩
      rw [Limit.isReached_less] at hk ⊢
      exact hle _ hk
    | force _ hs => cases hs
  | force hlimit hs hf _ ih =>
    obtain ⟨_, _, _, hf', -, h'⟩ := h'.exists_force (Limit.isReached_eq_false hle hlimit) hs
    rw [hf] at hf'
    cases hf'
    exact ih h' hle

end Pulled

/-! ## The loop that collects -/

section

variable {reversed : List α} {produced forced : Nat}

theorem collectRound_of_reached (h : limit.isReached produced = true) (s : LazyStream κ α) :
    collectRound run limit ⟨reversed, produced, forced, s⟩ =
      pure (.inr (reversed.reverse, forced)) := by
  rw [collectRound, if_pos h]

theorem collectRound_empty :
    collectRound run limit ⟨reversed, produced, forced, (empty : LazyStream κ α)⟩ =
      pure (.inr (reversed.reverse, forced)) := by
  rw [collectRound, ite_self]

theorem collectRound_cons (h : limit.isReached produced = false) (a : α) (d : LazyStream κ α) :
    collectRound run limit ⟨reversed, produced, forced, cons a d⟩ =
      pure (.inl ⟨a :: reversed, produced + 1, forced, d⟩) := by
  rw [collectRound, h]
  rfl

theorem collectRound_of_suspended (h : limit.isReached produced = false) (hs : s.isMature = false) :
    collectRound run limit ⟨reversed, produced, forced, s⟩ =
      s.force run >>= fun s => pure (.inl ⟨reversed, produced, forced + 1, s⟩) := by
  rw [collectRound, h]
  cases s with
  | empty | cons => cases hs
  | delay | swap | bind => rfl

/-- The loop collects what is left to be pulled, behind what has been collected before. -/
theorem Pulled.exists_iterate (reversed : List α) (forced : Nat)
    (h : Pulled run (limit.less produced) s items n) :
    ∃ rounds log, Logged.iterate (collectRound run limit) rounds ⟨reversed, produced, forced, s⟩ =
      .value (reversed.reverse ++ items, forced + n) log := by
  generalize hleft : limit.less produced = left at h
  induction h generalizing reversed produced forced with
  | reached h =>
    rw [← hleft, Limit.isReached_less_zero] at h
    refine ⟨1, [], ?_⟩
    rw [iterate_succ, collectRound_of_reached h, pure_bind, List.append_nil]
    rfl
  | stop =>
    refine ⟨1, [], ?_⟩
    rw [iterate_succ, collectRound_empty, pure_bind, List.append_nil]
    rfl
  | @cons _ a d items n h _ ih =>
    rw [← hleft, Limit.isReached_less_zero] at h
    obtain ⟨rounds, log, hlog⟩ := ih (a :: reversed) forced (by rw [← hleft, Limit.less_less])
    refine ⟨rounds + 1, log, ?_⟩
    rw [iterate_succ, collectRound_cons h, pure_bind, Sum.elim_inl, hlog, List.reverse_cons,
      List.append_assoc]
    rfl
  | @force _ s s' before items n h hs hf _ ih =>
    rw [← hleft, Limit.isReached_less_zero] at h
    obtain ⟨rounds, log, hlog⟩ := ih reversed (forced + 1) hleft
    refine ⟨rounds + 1, before ++ log, ?_⟩
    rw [iterate_succ, collectRound_of_suspended h hs, hf, bind_assoc, value_bind, pure_bind,
      Sum.elim_inl, hlog, after, Nat.add_right_comm, Nat.add_assoc]

/-- What the loop collects is there to be pulled. -/
theorem exists_pulled_of_iterate {rounds : Nat}
    (h : Logged.iterate (collectRound run limit) rounds ⟨reversed, produced, forced, s⟩ =
      .value (items', m) events) :
    ∃ items n, Pulled run (limit.less produced) s items n ∧ items' = reversed.reverse ++ items ∧
      m = forced + n := by
  induction rounds generalizing reversed produced forced s events with
  | zero => cases h
  | succ rounds ih =>
    rw [iterate_succ] at h
    cases hlimit : limit.isReached produced with
    | true =>
      rw [collectRound_of_reached hlimit, pure_bind] at h
      cases h
      have hreached := (limit.isReached_less_zero produced).trans hlimit
      exact ⟨[], 0, .reached hreached, (List.append_nil _).symm, rfl⟩
    | false =>
      have hopen := (limit.isReached_less_zero produced).trans hlimit
      induction s using matureInduction with
      | empty =>
        rw [collectRound_empty, pure_bind] at h
        cases h
        exact ⟨[], 0, .stop, (List.append_nil _).symm, rfl⟩
      | cons a d =>
        rw [collectRound_cons hlimit, pure_bind, Sum.elim_inl] at h
        obtain ⟨items, n, hd, rfl, rfl⟩ := ih h
        rw [← Limit.less_less] at hd
        exact ⟨a :: items, n, hd.cons hopen, by simp, rfl⟩
      | suspended s hs =>
        rw [collectRound_of_suspended hlimit hs, bind_assoc] at h
        obtain ⟨s', _, _, hf, hrest⟩ := bind_eq_value_iff.1 ⟨events, h⟩
        rw [pure_bind, Sum.elim_inl] at hrest
        obtain ⟨items, n, hs', rfl, rfl⟩ := ih hrest
        exact ⟨items, n + 1, hs'.force hopen hs hf, rfl, by omega⟩

end

/-- The loop that collects comes to its end, with what is pulled and with the number of forcings. -/
theorem Pulled.exists_collect (h : Pulled run limit s items n) :
    ∃ rounds log, s.collect run rounds limit = .value (items, n) log := by
  rw [← limit.less_zero] at h
  obtain ⟨rounds, log, hlog⟩ := h.exists_iterate [] 0
  rw [Nat.zero_add] at hlog
  exact ⟨rounds, log, hlog⟩

theorem pulled_of_collect {rounds : Nat}
    (h : s.collect run rounds limit = .value (items, n) events) : Pulled run limit s items n := by
  obtain ⟨items', m, hpulled, rfl, rfl⟩ := exists_pulled_of_iterate h
  rw [Limit.less_zero] at hpulled
  rw [Nat.zero_add]
  exact hpulled

/-! ## The loop from one element to the next -/

/-- The loop to the next element forces a suspended stream in its first round. -/
theorem take_of_suspended (hs : s.isMature = false) (rounds k : Nat) :
    (s.force run >>= fun s' => s'.take run rounds (k + 1)).Approximates
      (s.take run (rounds + 1) (k + 1)) := by
  simp only [take_succ, next?_of_suspended run rounds hs, bind_assoc]
  refine (Approximates.refl _).bind fun s' => (Approximates.refl _).bind fun found => ?_
  match found with
  | none => exact .refl _
  | some (a, d) =>
    exact (take_approximates (fun f a => .refl (run f a)) (Nat.le_add_right rounds 1) k d).map _

/-- The loop from one element to the next comes to its end, with what is pulled. -/
theorem Pulled.exists_take (h : Pulled run (.atMost k) s items n) :
    ∃ rounds log, s.take run rounds k = .value items log := by
  generalize hlimit : Limit.atMost k = limit at h
  induction h generalizing k with
  | reached h =>
    subst hlimit
    obtain rfl : k = 0 := Nat.le_zero.1 (of_decide_eq_true h)
    exact ⟨0, [], take_zero run 0 _⟩
  | stop =>
    cases k with
    | zero => exact ⟨0, [], take_zero run 0 _⟩
    | succ k =>
      refine ⟨1, [], ?_⟩
      rw [take_succ, next?_empty, pure_bind]
      rfl
  | @cons _ a d items n h _ ih =>
    subst hlimit
    cases k with
    | zero => cases h
    | succ k =>
      obtain ⟨rounds, log, hlog⟩ := ih rfl
      have hmore := (take_approximates (fun f a => .refl (run f a)) (Nat.le_add_right rounds 1) k
        d).eq_value hlog
      refine ⟨rounds + 1, log, ?_⟩
      rw [take_succ, next?_cons, pure_bind]
      show (a :: ·) <$> d.take run (rounds + 1) k = _
      rw [hmore, map_value]
  | @force _ s s' before items n h hs hf _ ih =>
    subst hlimit
    cases k with
    | zero => cases h
    | succ k =>
      obtain ⟨rounds, log, hlog⟩ := ih rfl
      refine ⟨rounds + 1, before ++ log, (take_of_suspended hs rounds k).eq_value ?_⟩
      rw [hf, value_bind, hlog, after]

/-- Where the loop to the next element comes to an end, what is done with its result is done with the
stream behind its leading forcings. -/
theorem exists_pulled_of_next? {next : Option (α × LazyStream κ α) → Logged (List α)}
    (hlimit : limit.isReached 0 = false) (hstop : next none = pure [])
    (hnext : ∀ a d items events, next (some (a, d)) = .value items events →
      ∃ n, Pulled run limit (cons a d) items n) {rounds : Nat}
    (h : s.next? run rounds >>= next = .value items events) : ∃ n, Pulled run limit s items n := by
  induction rounds generalizing s events with
  | zero => cases h
  | succ rounds ih =>
    induction s using matureInduction with
    | empty =>
      rw [next?_empty, pure_bind, hstop] at h
      cases h
      exact ⟨0, .stop⟩
    | cons a d =>
      rw [next?_cons, pure_bind] at h
      exact hnext a d items events h
    | suspended s hs =>
      rw [next?_of_suspended run rounds hs, bind_assoc] at h
      obtain ⟨s', _, _, hf, hrest⟩ := bind_eq_value_iff.1 ⟨events, h⟩
      obtain ⟨n, hn⟩ := ih hrest
      exact ⟨n + 1, hn.force hlimit hs hf⟩

/-- What is taken is there to be pulled. -/
theorem exists_pulled_of_take {rounds : Nat} (h : s.take run rounds k = .value items events) :
    ∃ n, Pulled run (.atMost k) s items n := by
  induction k generalizing s items events with
  | zero =>
    rw [take_zero, pure_eq] at h
    cases h
    exact ⟨0, .reached rfl⟩
  | succ k ih =>
    rw [take_succ] at h
    refine exists_pulled_of_next? rfl rfl (fun a d items events h => ?_) h
    obtain ⟨rest, log, hrest, rfl⟩ := map_eq_value_iff.1 ⟨events, h⟩
    obtain ⟨n, hn⟩ := ih hrest
    exact ⟨n, hn.cons rfl⟩

/-! ## Both loops -/

/-- Whatever functions the suspensions of a stream call, one loop comes to an end precisely when the
other one does, and with the same elements; and where the first steps of the stream show `n`
elements, or the end, both come to an end with those that come first, and the one that collects has
forced as often as the steps do before the last of them. -/
theorem loops_agree (run : κ → α → Logged (LazyStream κ α)) (s : LazyStream κ α) (n : Nat) :
    (∀ items, (∃ rounds m log, s.collect run rounds (.atMost n) = .value (items, m) log) ↔
      ∃ rounds log, s.take run rounds n = .value items log) ∧
    ∀ k steps events, s.trace run k = .value steps events →
      n ≤ (Step.elements steps).length ∨ .stop ∈ steps → ∃ N, ∀ rounds ≥ N,
        (∃ log, s.collect run rounds (.atMost n) =
          .value ((Step.elements steps).take n, Step.forcedFor n steps) log) ∧
        ∃ log, s.take run rounds n = .value ((Step.elements steps).take n) log := by
  refine ⟨fun items => ⟨?_, ?_⟩, fun k steps events h hn => ?_⟩
  · rintro ⟨rounds, m, log, h⟩
    exact (pulled_of_collect h).exists_take
  · rintro ⟨rounds, log, h⟩
    obtain ⟨m, hm⟩ := exists_pulled_of_take h
    obtain ⟨rounds, log, hlog⟩ := hm.exists_collect
    exact ⟨rounds, m, log, hlog⟩
  · have hpulled := pulled_of_trace h hn
    obtain ⟨N, log, hcollect⟩ := hpulled.exists_collect
    obtain ⟨M, log', htake⟩ := hpulled.exists_take
    have hrun : ∀ f a, (run f a).Approximates (run f a) := fun f a => .refl (run f a)
    refine ⟨max N M, fun rounds hrounds => ⟨⟨log, ?_⟩, log', ?_⟩⟩
    · exact (collect_approximates hrun (by omega) (.atMost n) s).eq_value hcollect
    · exact (take_approximates hrun (by omega) n s).eq_value htake

end LazyStream

end Relational
