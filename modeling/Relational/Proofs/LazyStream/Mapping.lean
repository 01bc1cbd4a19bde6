import Relational.Proofs.LazyStream.Turns

/-!
# Mapping to streams

A step of the streams that a function gives for the elements of a stream is a step of the stream of
one of the elements, unless it is spent on coming to the next element. `Visits` says of which
element's stream a step is, and of which step of it. The steps of each of these streams are made in
their order (`Visits.le_of_le`), and none is made twice (`Visits.step_unique`). Every element that is
emitted is emitted by the stream of some element (`exists_visits`), and the stream of every element is
visited to its end, if no step ends in a fault (`Maps.exists_part`). None does where neither the stream
of elements nor any of those for its elements has a fault (`Supplies.faultless`).
-/

namespace Relational.LazyStream

variable {κ α : Type} {run : κ → α → Logged (LazyStream κ α)} {f : κ}
  {s s' b d : LazyStream κ α} {k i j : Nat} {a x : α} {e : Fault} {events : List Event}

/-- The stream `b` has the streams that the function gives for the elements of `s`. -/
def Maps (run : κ → α → Logged (LazyStream κ α)) (f : κ) (s b : LazyStream κ α) : Prop :=
  ∃ events, s.appendMap (run f) f = .value b events

theorem maps_empty : Maps run f empty b ↔ b = empty := by
  simp [Maps, appendMap_empty, Logged.pure_eq, eq_comm]

/-- The stream of the first element comes before those of the others. -/
theorem maps_cons : Maps run f (cons a d) b ↔
    ∃ part events rest, run f a = .value part events ∧ Maps run f d rest ∧ b = part.append rest := by
  rw [Maps, appendMap_cons]
  cases run f a with
  | fault e => simp
  | value part first =>
    cases hd : d.appendMap (run f) f with
    | fault e => simp [Maps, hd, Logged.after]
    | value rest second => simp [Maps, hd, Logged.after, Logged.pure_eq, eq_comm]

theorem maps_of_suspended (h : s.isMature = false) : Maps run f s b ↔ b = bind s f := by
  simp [Maps, appendMap_of_suspended _ _ h, Logged.pure_eq, eq_comm]

/-- There is one way of mapping. -/
theorem Maps.unique {c : LazyStream κ α} (hb : Maps run f s b) (hc : Maps run f s c) : b = c := by
  obtain ⟨_, hb⟩ := hb
  obtain ⟨_, hc⟩ := hc
  rw [hb] at hc
  injection hc

/-- Forcing the streams of the elements of a suspended stream forces that stream first. -/
theorem exists_force_bind_iff (hf : s.force run = .value s' events) :
    (∃ others, (bind s f).force run = .value b others) ↔ Maps run f s' b := by
  simp only [force, hf, Logged.value_bind, Maps]
  cases s'.appendMap (run f) f <;> simp [Logged.after]

theorem force_bind_of_fault (hf : s.force run = .fault e) : (bind s f).force run = .fault e := by
  simp only [force, hf, Logged.fault_bind]

/-- At step `k` of the streams for the elements of a stream, step `j` is made of the stream for the
element that is emitted at step `i`. -/
inductive Visits (run : κ → α → Logged (LazyStream κ α)) (f : κ) :
    LazyStream κ α → Nat → Nat → Nat → Prop where
  /-- The stream of the first element is at its step. -/
  | here {c : α} {d part rest : LazyStream κ α} {log : List Event} {k j : Nat}
    (hpart : run f c = .value part log) (hrest : Maps run f d rest)
    (hturn : turn run k part rest = .inl j) : Visits run f (cons c d) k 0 j
  /-- One of the streams behind it is. -/
  | behind {c : α} {d part rest : LazyStream κ α} {log : List Event} {k m i j : Nat}
    (hpart : run f c = .value part log) (hrest : Maps run f d rest)
    (hturn : turn run k part rest = .inr m) (h : Visits run f d m i j) :
    Visits run f (cons c d) k (i + 1) j
  /-- The stream of elements has been forced before. -/
  | later {s s' : LazyStream κ α} {log : List Event} {k i j : Nat} (hs : s.isMature = false)
    (hf : s.force run = .value s' log) (h : Visits run f s' k i j) :
    Visits run f s (k + 1) (i + 1) j

/-- What the stream of a first element and those of the others are, where they are known. -/
theorem Maps.eq_append {part rest : LazyStream κ α} (hb : Maps run f (cons a d) b)
    (hpart : run f a = .value part events) (hrest : Maps run f d rest) : b = part.append rest := by
  obtain ⟨part', _, rest', hpart', hrest', rfl⟩ := maps_cons.1 hb
  rw [hpart] at hpart'
  injection hpart' with hpart'
  rw [hpart', hrest.unique hrest']

/-- What the streams of the elements of a suspended stream are, once it has been forced. -/
theorem Maps.exists_force {c : LazyStream κ α} (hb : Maps run f s b) (h : s.isMature = false)
    (hf : s.force run = .value s' events) (hc : Maps run f s' c) :
    b.isMature = false ∧ ∃ others, b.force run = .value c others := by
  rw [maps_of_suspended h] at hb
  subst hb
  exact ⟨rfl, (exists_force_bind_iff hf).2 hc⟩

namespace Visits

/-- A visit belongs to an element. -/
theorem exists_part (h : Visits run f s k i j) :
    ∃ a part events, stepAt run i s = some (.ok (.emit a)) ∧ run f a = .value part events := by
  induction h with
  | here hpart hrest hturn => exact ⟨_, _, _, rfl, hpart⟩
  | behind hpart hrest hturn h ih => exact ih
  | later hs hf h ih =>
    obtain ⟨a, part, log, hemit, hpart⟩ := ih
    exact ⟨a, part, log, by rwa [stepAt_succ_of_value hs hf], hpart⟩

/-- Where there is a visit, the elements that are there have streams. -/
theorem exists_maps (h : Visits run f s k i j) : ∃ b, Maps run f s b := by
  cases h with
  | here hpart hrest hturn => exact ⟨_, maps_cons.2 ⟨_, _, _, hpart, hrest, rfl⟩⟩
  | behind hpart hrest hturn h => exact ⟨_, maps_cons.2 ⟨_, _, _, hpart, hrest, rfl⟩⟩
  | later hs hf h => exact ⟨_, (maps_of_suspended hs).2 rfl⟩

/-- What happens at a visit is what happens in the stream of the element, and neither the stream of
elements nor that one has been forced more often than all together. -/
theorem spec {part : LazyStream κ α} (h : Visits run f s k i j) (hb : Maps run f s b)
    (ha : stepAt run i s = some (.ok (.emit a))) (hpart : run f a = .value part events) :
    stepAt run k b = stepAt run j part ∧ forced run i s ≤ forced run k b ∧
      forced run j part ≤ forced run k b := by
  induction h generalizing b with
  | here hfirst hrest hturn =>
    rw [stepAt_cons_zero] at ha
    cases ha
    rw [hpart] at hfirst
    cases hfirst
    rw [hb.eq_append hpart hrest, stepAt_append_of_inl hturn]
    exact ⟨rfl, by simp, forced_le_of_turn_inl hturn⟩
  | behind hfirst hrest hturn h ih =>
    have ⟨hstep, hle, hpartle⟩ := ih hrest ha
    have hturnle := forced_le_of_turn_inr hturn
    rw [hb.eq_append hfirst hrest, stepAt_append_of_inr hturn]
    exact ⟨hstep, Nat.le_trans hle hturnle, Nat.le_trans hpartle hturnle⟩
  | later hs hf h ih =>
    obtain ⟨c, hc⟩ := h.exists_maps
    obtain ⟨hbs, others, hbf⟩ := hb.exists_force hs hf hc
    rw [stepAt_succ_of_value hs hf] at ha
    have ⟨hstep, hle, hpartle⟩ := ih hc ha
    rw [stepAt_succ_of_value hbs hbf, forced_succ_of_value hbs hbf, forced_succ_of_value hs hf]
    exact ⟨hstep, Nat.succ_le_succ hle, Nat.le_succ_of_le hpartle⟩

/-- A visit of the streams of a first element and of the others is a visit of one of the two. -/
theorem cases_cons {part rest : LazyStream κ α} (h : Visits run f (cons a d) k i j)
    (hpart : run f a = .value part events) (hrest : Maps run f d rest) :
    (i = 0 ∧ turn run k part rest = .inl j) ∨
      ∃ m n, i = m + 1 ∧ turn run k part rest = .inr n ∧ Visits run f d n m j := by
  cases h with
  | here hpart' hrest' hturn =>
    rw [hpart] at hpart'
    cases hpart'
    rw [hrest.unique hrest']
    exact .inl ⟨rfl, hturn⟩
  | behind hpart' hrest' hturn h =>
    rw [hpart] at hpart'
    cases hpart'
    rw [hrest.unique hrest']
    exact .inr ⟨_, _, rfl, hturn, h⟩
  | later hs => cases hs

/-- A visit of the streams of the elements of a suspended stream comes after that has been forced. -/
theorem cases_suspended (h : Visits run f s k i j) (hs : s.isMature = false)
    (hf : s.force run = .value s' events) :
    ∃ m n, i = m + 1 ∧ k = n + 1 ∧ Visits run f s' n m j := by
  cases h with
  | here | behind => cases hs
  | later _ hf' h =>
    rw [hf] at hf'
    cases hf'
    exact ⟨_, _, rfl, rfl, h⟩

/-- A step is a step of the stream of one element, and one step of it. -/
theorem index_unique {i' j' : Nat} (h : Visits run f s k i j) (h' : Visits run f s k i' j') :
    i = i' ∧ j = j' := by
  induction h generalizing i' j' with
  | here hpart hrest hturn =>
    rcases h'.cases_cons hpart hrest with ⟨rfl, hturn'⟩ | ⟨m, n, rfl, hturn', -⟩
    · rw [hturn] at hturn'
      exact ⟨rfl, Sum.inl.inj hturn'⟩
    · rw [hturn] at hturn'
      cases hturn'
  | behind hpart hrest hturn h ih =>
    rcases h'.cases_cons hpart hrest with ⟨rfl, hturn'⟩ | ⟨m, n, rfl, hturn', h'⟩
    · rw [hturn] at hturn'
      cases hturn'
    · rw [hturn] at hturn'
      cases hturn'
      have ⟨hi, hj⟩ := ih h'
      exact ⟨congrArg (· + 1) hi, hj⟩
  | later hs hf h ih =>
    obtain ⟨m, n, rfl, hn, h'⟩ := h'.cases_suspended hs hf
    cases hn
    have ⟨hi, hj⟩ := ih h'
    exact ⟨congrArg (· + 1) hi, hj⟩

/-- The steps of the stream of an element are made in their order. -/
theorem le_of_le {j' k' : Nat} (h : Visits run f s k i j) (h' : Visits run f s k' i j')
    (hj : j ≤ j') : k ≤ k' := by
  induction h generalizing k' with
  | here hpart hrest hturn =>
    rcases h'.cases_cons hpart hrest with ⟨-, hturn'⟩ | ⟨_, _, hm, -, -⟩
    · have hle : (Sum.inl _ : Nat ⊕ Nat) ≤ .inl j' := Sum.inl_le_inl_iff.2 hj
      rw [← hturn, ← hturn'] at hle
      exact le_of_turn_le _ _ hle
    · cases hm
  | behind hpart hrest hturn h ih =>
    rcases h'.cases_cons hpart hrest with ⟨hi, -⟩ | ⟨m, n, hm, hturn', h'⟩
    · cases hi
    · cases hm
      have hle : (Sum.inr _ : Nat ⊕ Nat) ≤ .inr n := Sum.inr_le_inr_iff.2 (ih h' hj)
      rw [← hturn, ← hturn'] at hle
      exact le_of_turn_le _ _ hle
  | later hs hf h ih =>
    obtain ⟨m, n, hm, rfl, h'⟩ := h'.cases_suspended hs hf
    cases hm
    exact Nat.succ_le_succ (ih h' hj)

/-- No step of the stream of an element is made twice. -/
theorem step_unique {k' : Nat} (h : Visits run f s k i j) (h' : Visits run f s k' i j) : k = k' :=
  Nat.le_antisymm (h.le_of_le h' (Nat.le_refl j)) (h'.le_of_le h (Nat.le_refl j))

/-- Of two steps of the stream of an element the earlier one is made first. -/
theorem lt_iff_lt {j' k' : Nat} (h : Visits run f s k i j) (h' : Visits run f s k' i j') :
    j < j' ↔ k < k' := by
  constructor
  · intro hj
    refine Nat.lt_of_le_of_ne (h.le_of_le h' (Nat.le_of_lt hj)) ?_
    rintro rfl
    exact Nat.ne_of_lt hj (h.index_unique h').2
  · intro hk
    by_contra hj
    exact Nat.not_lt_of_le (h'.le_of_le h (Nat.le_of_not_lt hj)) hk

end Visits

/-! ## Streams for all elements -/

/-- The function has a stream without faults for every element that `s` emits: the one that `g`
gives. -/
def Supplies (run : κ → α → Logged (LazyStream κ α)) (f : κ) (g : α → LazyStream κ α)
    (s : LazyStream κ α) : Prop :=
  ∀ i a, stepAt run i s = some (.ok (.emit a)) →
    ∃ events, run f a = .value (g a) events ∧ (g a).Faultless run

variable {g : α → LazyStream κ α}

namespace Supplies

theorem tail (h : Supplies run f g (cons a d)) : Supplies run f g d :=
  fun i a hi => h (i + 1) a hi

theorem force (h : Supplies run f g s) (hs : s.isMature = false)
    (hf : s.force run = .value s' events) : Supplies run f g s' :=
  fun i a hi => h (i + 1) a (by rwa [stepAt_succ_of_value hs hf])

/-- The elements that are there are mapped. -/
theorem exists_maps (h : Supplies run f g s) : ∃ b, Maps run f s b := by
  induction s using matureInduction with
  | empty => exact ⟨empty, maps_empty.2 rfl⟩
  | cons a d ih =>
    obtain ⟨_, hpart, -⟩ := h 0 a rfl
    obtain ⟨rest, hrest⟩ := ih h.tail
    exact ⟨_, maps_cons.2 ⟨_, _, _, hpart, hrest, rfl⟩⟩
  | suspended s hs => exact ⟨_, (maps_of_suspended hs).2 rfl⟩

/-- The streams for the elements of a stream without faults do not fault. -/
theorem faultless (h : Supplies run f g s) (hs : s.Faultless run) (hb : Maps run f s b) :
    b.Faultless run := by
  intro k e hk
  obtain ⟨n, hn⟩ : ∃ n, forced run k b < n := ⟨_, Nat.lt_succ_self _⟩
  induction n generalizing s b k with
  | zero => omega
  | succ n ih =>
    induction s using matureInduction generalizing b k with
    | empty =>
      rw [maps_empty.1 hb] at hk
      exact faultless_empty k e hk
    | cons a d ihd =>
      obtain ⟨_, hpart, hfaultless⟩ := h 0 a rfl
      obtain ⟨rest, hrest⟩ := h.tail.exists_maps
      rw [hb.eq_append hpart hrest] at hk hn
      cases hturn : turn run k (g a) rest with
      | inl j => exact hfaultless j e (stepAt_append_of_inl hturn ▸ hk)
      | inr m =>
        rw [stepAt_append_of_inr hturn] at hk
        have hle := forced_le_of_turn_inr hturn
        exact ihd h.tail (faultless_cons.1 hs) hrest m hk (by omega)
    | suspended s hsus =>
      obtain ⟨s', _, hf, hs'⟩ := hs.exists_force hsus
      obtain ⟨c, hc⟩ := (h.force hsus hf).exists_maps
      obtain ⟨hbsus, _, hbf⟩ := hb.exists_force hsus hf hc
      cases k with
      | zero => rw [stepAt_zero_of_value hbsus hbf] at hk; cases hk
      | succ k =>
        rw [stepAt_succ_of_value hbsus hbf] at hk
        rw [forced_succ_of_value hbsus hbf] at hn
        exact ih (h.force hsus hf) hs' hc k hk (by omega)

end Supplies

/-! ## Soundness and fairness -/

/-- Where the streams of the elements of a suspended stream are forced, so is that stream. -/
theorem Maps.exists_of_force (hb : Maps run f s b) (h : s.isMature = false) {c : LazyStream κ α}
    (hc : b.force run = .value c events) :
    ∃ s' log, s.force run = .value s' log ∧ Maps run f s' c := by
  rw [maps_of_suspended h] at hb
  subst hb
  cases hf : s.force run with
  | fault e =>
    rw [force_bind_of_fault hf] at hc
    cases hc
  | value s' log => exact ⟨s', log, rfl, (exists_force_bind_iff hf).1 ⟨_, hc⟩⟩

theorem Maps.isMature (hb : Maps run f s b) (h : s.isMature = false) : b.isMature = false := by
  rw [maps_of_suspended h] at hb
  rw [hb]
  rfl

/-- Every element that is emitted is emitted by the stream of some element. -/
theorem exists_visits (hb : Maps run f s b) (hk : stepAt run k b = some (.ok (.emit x))) :
    ∃ i j, Visits run f s k i j := by
  obtain ⟨n, hn⟩ : ∃ n, forced run k b < n := ⟨_, Nat.lt_succ_self _⟩
  induction n generalizing s b k with
  | zero => omega
  | succ n ih =>
    induction s using matureInduction generalizing b k with
    | empty =>
      rw [maps_empty.1 hb] at hk
      cases k <;> cases hk
    | cons a d ihd =>
      obtain ⟨part, _, rest, hpart, hrest, rfl⟩ := maps_cons.1 hb
      cases hturn : turn run k part rest with
      | inl j => exact ⟨0, j, .here hpart hrest hturn⟩
      | inr m =>
        rw [stepAt_append_of_inr hturn] at hk
        have hle := forced_le_of_turn_inr hturn
        obtain ⟨i, j, h⟩ := ihd hrest hk (by omega)
        exact ⟨i + 1, j, .behind hpart hrest hturn h⟩
    | suspended s hs =>
      have hbs := hb.isMature hs
      obtain ⟨m, c, _, rfl, hc, hm⟩ := exists_of_stepAt_emit hbs hk
      rw [forced_succ_of_value hbs hc] at hn
      obtain ⟨s', _, hf, hmaps⟩ := hb.exists_of_force hs hc
      obtain ⟨i, j, h⟩ := ih hmaps hm (by omega)
      exact ⟨i + 1, j, .later hs hf h⟩

/-- If the streams of the elements do not fault, neither does the stream of elements. -/
theorem Maps.faultless (hb : Maps run f s b) (hfaultless : b.Faultless run) : s.Faultless run := by
  intro i e hi
  induction i generalizing s b with
  | zero =>
    induction s using matureInduction with
    | empty | cons => cases hi
    | suspended s hs =>
      obtain ⟨c, _, hc, -⟩ := hfaultless.exists_force (hb.isMature hs)
      obtain ⟨s', _, hf, -⟩ := hb.exists_of_force hs hc
      rw [stepAt_zero_of_value hs hf] at hi
      cases hi
  | succ i ih =>
    induction s using matureInduction with
    | empty => cases hi
    | cons a d =>
      obtain ⟨part, _, rest, -, hrest, rfl⟩ := maps_cons.1 hb
      exact ih hrest hfaultless.of_append_right hi
    | suspended s hs =>
      obtain ⟨c, _, hc, hcf⟩ := hfaultless.exists_force (hb.isMature hs)
      obtain ⟨s', _, hf, hmaps⟩ := hb.exists_of_force hs hc
      rw [stepAt_succ_of_value hs hf] at hi
      exact ih hmaps hcf hi

/-- The stream of every element is visited to its end, if no step ends in a fault. -/
theorem Maps.exists_part (hb : Maps run f s b) (hfaultless : b.Faultless run)
    (hi : stepAt run i s = some (.ok (.emit a))) :
    ∃ part events, run f a = .value part events ∧ part.Faultless run ∧
      ∀ j, Active run j part → ∃ k, Visits run f s k i j := by
  induction i generalizing s b with
  | zero =>
    induction s using matureInduction with
    | empty => cases hi
    | cons a' d =>
      rw [stepAt_cons_zero] at hi
      cases hi
      obtain ⟨part, events, rest, hpart, hrest, rfl⟩ := maps_cons.1 hb
      refine ⟨part, events, hpart, hfaultless.of_append_left, fun j hj => ?_⟩
      obtain ⟨k, hk⟩ := exists_turn_inl hfaultless hj
      exact ⟨k, .here hpart hrest hk⟩
    | suspended s hs =>
      obtain ⟨_, _, _, hi, -⟩ := exists_of_stepAt_emit hs hi
      cases hi
  | succ i ih =>
    induction s using matureInduction with
    | empty => cases hi
    | cons a' d =>
      obtain ⟨first, _, rest, hfirst, hrest, rfl⟩ := maps_cons.1 hb
      obtain ⟨part, events, hpart, hpf, hvisit⟩ := ih hrest hfaultless.of_append_right hi
      refine ⟨part, events, hpart, hpf, fun j hj => ?_⟩
      obtain ⟨m, hm⟩ := hvisit j hj
      obtain ⟨y, hy, hne⟩ := hj
      obtain ⟨hstep, -, -⟩ := hm.spec hrest hi hpart
      obtain ⟨k, hk⟩ := exists_turn_inr hfaultless ⟨y, hstep.trans hy, hne⟩
      exact ⟨k, .behind hfirst hrest hk hm⟩
    | suspended s hs =>
      obtain ⟨c, _, hc, hcf⟩ := hfaultless.exists_force (hb.isMature hs)
      obtain ⟨s', _, hf, hmaps⟩ := hb.exists_of_force hs hc
      rw [stepAt_succ_of_value hs hf] at hi
      obtain ⟨part, events, hpart, hpf, hvisit⟩ := ih hmaps hcf hi
      refine ⟨part, events, hpart, hpf, fun j hj => ?_⟩
      obtain ⟨k, hk⟩ := hvisit j hj
      exact ⟨k + 1, .later hs hf hk⟩

end Relational.LazyStream
