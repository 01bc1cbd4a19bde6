import Mathlib.Logic.Equiv.Defs
import Relational.Proofs.LazyStream.Ends
import Relational.Proofs.LazyStream.Mapping
import Relational.Proofs.LazyStream.Pending

/-!
# The elements of mapped streams

A stream of which every element is mapped to a stream emits what these streams emit, and each element
of each of them once: the steps at which it emits are paired with the numbers of an element and of an
element that the stream for that one emits (`appendMap_emissions`). Its end comes when the stream of
elements and all the streams for its elements have ended, and it is forced as often as all of them
together (`Supplies.forcings_eq`).
-/

namespace Relational.LazyStream

variable {κ α : Type} {run : κ → α → Logged (LazyStream κ α)} {f : κ} {g : α → LazyStream κ α}
  {s s' b d : LazyStream κ α} {k i j n : Nat} {a x : α} {items : List α} {events : List Event}

/-! ## Numbered elements -/

/-- How many elements a stream emits before a step. -/
def emitted (run : κ → α → Logged (LazyStream κ α)) : Nat → LazyStream κ α → Nat
  | 0, _ | _ + 1, empty => 0
  | k + 1, cons _ d => emitted run k d + 1
  | k + 1, s =>
    match s.force run with
    | .value s _ => emitted run k s
    | .fault _ => 0

@[simp] theorem emitted_zero (s : LazyStream κ α) : emitted run 0 s = 0 := by
  cases s <;> rfl

@[simp] theorem emitted_cons_succ (d : LazyStream κ α) :
    emitted run (k + 1) (cons a d) = emitted run k d + 1 := rfl

theorem emitted_succ_of_value (hs : s.isMature = false) (hf : s.force run = .value s' events) :
    emitted run (k + 1) s = emitted run k s' := by
  cases s with
  | empty | cons => cases hs
  | delay | swap | bind => simp only [emitted, hf]

/-- The stream emits an element, as the one of number `i`, counted from 0. -/
def EmitsNth (run : κ → α → Logged (LazyStream κ α)) (s : LazyStream κ α) (i : Nat) (a : α) : Prop :=
  ∃ k, s.EmitsAt run k a ∧ emitted run k s = i

/-- What is emitted later has a larger number. -/
theorem strictMonoOn_emitted (s : LazyStream κ α) :
    StrictMonoOn (emitted run · s) {k | ∃ a, s.EmitsAt run k a} := by
  rintro k ⟨a, h⟩ k' ⟨x, h'⟩ hlt
  rw [emitsAt_iff] at h h'
  beta_reduce
  induction k generalizing s k' with
  | zero =>
    cases k' with
    | zero => cases hlt
    | succ k' =>
      induction s using matureInduction with
      | empty => cases h
      | cons b d => simp
      | suspended s hs =>
        obtain ⟨_, _, _, hk, -⟩ := exists_of_stepAt_emit hs h
        cases hk
  | succ k ih =>
    cases k' with
    | zero => cases hlt
    | succ k' =>
      induction s using matureInduction with
      | empty => cases h
      | cons b d => exact Nat.succ_lt_succ (ih d h h' (Nat.lt_of_succ_lt_succ hlt))
      | suspended s hs =>
        obtain ⟨_, s', _, hk, hf, h⟩ := exists_of_stepAt_emit hs h
        cases hk
        rw [stepAt_succ_of_value hs hf] at h'
        rw [emitted_succ_of_value hs hf, emitted_succ_of_value hs hf]
        exact ih s' h h' (Nat.lt_of_succ_lt_succ hlt)

theorem not_emitsNth_empty : ¬ (empty : LazyStream κ α).EmitsNth run i a := by
  rintro ⟨k, h, -⟩
  rw [emitsAt_iff] at h
  cases k <;> cases h

@[simp] theorem emitsNth_cons_zero : (cons a d).EmitsNth run 0 x ↔ a = x := by
  constructor
  · rintro ⟨k, h, hk⟩
    rw [emitsAt_iff] at h
    cases k with
    | zero => cases h; rfl
    | succ k => cases hk
  · rintro rfl
    exact ⟨0, emitsAt_iff.2 rfl, rfl⟩

@[simp] theorem emitsNth_cons_succ :
    (cons a d).EmitsNth run (i + 1) x ↔ d.EmitsNth run i x := by
  constructor
  · rintro ⟨k, h, hk⟩
    rw [emitsAt_iff] at h
    cases k with
    | zero => cases hk
    | succ k => exact ⟨k, emitsAt_iff.2 h, Nat.succ.inj hk⟩
  · rintro ⟨k, h, rfl⟩
    rw [emitsAt_iff] at h
    exact ⟨k + 1, emitsAt_iff.2 h, rfl⟩

theorem emitsNth_of_value (hs : s.isMature = false) (hf : s.force run = .value s' events) :
    s.EmitsNth run i a ↔ s'.EmitsNth run i a := by
  constructor
  · rintro ⟨k, h, rfl⟩
    obtain ⟨j, s₁, _, rfl, hf₁, h⟩ := exists_of_stepAt_emit hs (emitsAt_iff.1 h)
    rw [hf] at hf₁
    cases hf₁
    exact ⟨j, emitsAt_iff.2 h, (emitted_succ_of_value hs hf).symm⟩
  · rintro ⟨k, h, rfl⟩
    refine ⟨k + 1, emitsAt_iff.2 ?_, emitted_succ_of_value hs hf⟩
    rw [stepAt_succ_of_value hs hf]
    exact emitsAt_iff.1 h

/-- The elements of a stream that ends are those that it emits, with their numbers. -/
theorem Ends.emitsNth_iff (h : s.Ends run items n) : s.EmitsNth run i a ↔ items[i]? = some a := by
  induction h generalizing i with
  | empty => simp [not_emitsNth_empty]
  | cons _ ih =>
    cases i with
    | zero => simp
    | succ i => simp [ih]
  | force hs hf _ ih => rw [emitsNth_of_value hs hf, ih]

/-- No two elements have one number. -/
theorem EmitsNth.unique {s : LazyStream κ α} (h : s.EmitsNth run i a) (h' : s.EmitsNth run i x) :
    a = x := by
  obtain ⟨k, hk, rfl⟩ := h
  obtain ⟨k', hk', heq⟩ := h'
  obtain rfl : k' = k := (strictMonoOn_emitted s).injOn ⟨x, hk'⟩ ⟨a, hk⟩ heq
  exact hk.unique hk'

/-! ## The pairing -/

/-- At step `k` of the streams for the elements of `s`, the element is emitted that has the second
number in the stream for the element of `s` that has the first number. -/
def Pairs (run : κ → α → Logged (LazyStream κ α)) (f : κ) (g : α → LazyStream κ α)
    (s : LazyStream κ α) (k : Nat) (p : Nat × Nat) : Prop :=
  ∃ i j a x, Visits run f s k i j ∧ s.EmitsAt run i a ∧ (g a).EmitsAt run j x ∧
    p = (emitted run i s, emitted run j (g a))

namespace Pairs

variable {p p' : Nat × Nat} {k' : Nat}

theorem unique (h : Pairs run f g s k p) (h' : Pairs run f g s k p') : p = p' := by
  obtain ⟨i, j, a, x, hvisit, hi, -, rfl⟩ := h
  obtain ⟨i', j', a', x', hvisit', hi', -, rfl⟩ := h'
  obtain ⟨rfl, rfl⟩ := hvisit.index_unique hvisit'
  rw [hi.unique hi']

/-- For each element of `s`, what its stream emits is emitted in order. -/
theorem lt_iff_lt (h : Pairs run f g s k p) (h' : Pairs run f g s k' p') (hfst : p.1 = p'.1) :
    p.2 < p'.2 ↔ k < k' := by
  obtain ⟨i, j, a, x, hvisit, hi, hj, rfl⟩ := h
  obtain ⟨i', j', a', x', hvisit', hi', hj', rfl⟩ := h'
  obtain rfl : i = i' := (strictMonoOn_emitted s).injOn ⟨a, hi⟩ ⟨a', hi'⟩ hfst
  obtain rfl : a = a' := hi.unique hi'
  rw [(strictMonoOn_emitted (g a)).lt_iff_lt ⟨x, hj⟩ ⟨x', hj'⟩]
  exact hvisit.lt_iff_lt hvisit'

theorem step_unique (h : Pairs run f g s k p) (h' : Pairs run f g s k' p) : k = k' := by
  have hlt := h.lt_iff_lt h' rfl
  have hgt := h'.lt_iff_lt h rfl
  omega

end Pairs

namespace Supplies

/-- What is emitted at a step is emitted by the stream of the element to which the step belongs. -/
theorem exists_pairs (h : Supplies run f g s) (hb : Maps run f s b) (hk : b.EmitsAt run k x) :
    ∃ p, Pairs run f g s k p ∧
      ∃ a, s.EmitsNth run p.1 a ∧ (g a).EmitsNth run p.2 x := by
  obtain ⟨i, j, hvisit⟩ := exists_visits hb (emitsAt_iff.1 hk)
  obtain ⟨a, part, _, hi, hpart⟩ := hvisit.exists_part
  obtain ⟨_, hg, -⟩ := h i a hi
  rw [hg] at hpart
  cases hpart
  obtain ⟨hstep, -, -⟩ := hvisit.spec hb hi hg
  rw [emitsAt_iff, hstep, ← emitsAt_iff] at hk
  rw [← emitsAt_iff] at hi
  exact ⟨_, ⟨i, j, a, x, hvisit, hi, hk, rfl⟩, a, ⟨i, hi, rfl⟩, ⟨j, hk, rfl⟩⟩

/-- What the stream of an element emits is emitted at a step that belongs to the element. -/
theorem exists_emitsAt {p : Nat × Nat} (h : Supplies run f g s) (hb : Maps run f s b)
    (hfaultless : b.Faultless run) (ha : s.EmitsNth run p.1 a) (hx : (g a).EmitsNth run p.2 x) :
    ∃ k, Pairs run f g s k p ∧ b.EmitsAt run k x := by
  obtain ⟨i, hi, hp₁⟩ := ha
  obtain ⟨j, hj, hp₂⟩ := hx
  have hstep := emitsAt_iff.1 hi
  obtain ⟨_, hg, -⟩ := h i a hstep
  obtain ⟨part, _, hpart, -, hvisits⟩ := hb.exists_part hfaultless hstep
  rw [hg] at hpart
  cases hpart
  obtain ⟨k, hk⟩ := hvisits j (active_of_emit (emitsAt_iff.1 hj))
  have hkj := (hk.spec hb hstep hg).1
  refine ⟨k, ⟨i, j, a, x, hk, hi, hj, Prod.ext hp₁.symm hp₂.symm⟩, ?_⟩
  rwa [emitsAt_iff, hkj, ← emitsAt_iff]

/-- The steps at which the streams for the elements emit are paired with the numbers of an element and
of an element of its stream, in the order of the second numbers where the first one is the same. -/
theorem exists_equiv (h : Supplies run f g s) (hb : Maps run f s b) (hfaultless : b.Faultless run) :
    ∃ e : {k // ∃ x, b.EmitsAt run k x} ≃
        {p : Nat × Nat // ∃ a x, s.EmitsNth run p.1 a ∧ (g a).EmitsNth run p.2 x},
      (∀ k x, b.EmitsAt run k.1 x →
        ∃ a, s.EmitsNth run (e k).1.1 a ∧ (g a).EmitsNth run (e k).1.2 x) ∧
      ∀ k k', (e k).1.1 = (e k').1.1 → ((e k).1.2 < (e k').1.2 ↔ k.1 < k'.1) := by
  have hplace : ∀ k : {k // ∃ x, b.EmitsAt run k x},
      ∃ p : {p : Nat × Nat // ∃ a x, s.EmitsNth run p.1 a ∧ (g a).EmitsNth run p.2 x},
        Pairs run f g s k.1 p.1 := by
    rintro ⟨k, x, hk⟩
    obtain ⟨p, hp, a, ha, hx⟩ := h.exists_pairs hb hk
    exact ⟨⟨p, a, x, ha, hx⟩, hp⟩
  choose place hpairs using hplace
  have hbijective : Function.Bijective place := by
    constructor
    · intro k k' heq
      exact Subtype.ext ((hpairs k).step_unique (heq ▸ hpairs k'))
    · rintro ⟨p, a, x, ha, hx⟩
      obtain ⟨k, hp, hk⟩ := h.exists_emitsAt hb hfaultless ha hx
      exact ⟨⟨k, x, hk⟩, Subtype.ext ((hpairs _).unique hp)⟩
  refine ⟨Equiv.ofBijective place hbijective, fun k x hx => ?_, fun k k' hfst => ?_⟩
  · obtain ⟨p, hp, ha⟩ := h.exists_pairs hb hx
    rw [Equiv.ofBijective_apply, (hpairs k).unique hp]
    exact ha
  · exact (hpairs k).lt_iff_lt (hpairs k') hfst

end Supplies

/-! ## The end -/

/-- Where the streams for the elements end, so do the stream of elements and each of them, and none of
these is forced more often than all together. -/
theorem Maps.exists_ends {out : List α} (hb : Maps run f s b) (h : b.Ends run out n) :
    ∃ items m, s.Ends run items m ∧ m ≤ n ∧ ∀ a ∈ items, ∃ part events out' k,
      run f a = .value part events ∧ part.Ends run out' k ∧ k ≤ n := by
  induction n using Nat.strong_induction_on generalizing s b out with
  | _ n ihn =>
    induction s using matureInduction generalizing n b out with
    | empty => exact ⟨[], 0, .empty, Nat.zero_le n, nofun⟩
    | cons a d ih =>
      obtain ⟨part, events, rest, hpart, hrest, rfl⟩ := maps_cons.1 hb
      obtain ⟨_, m, _, m', hends, hends', rfl⟩ := h.of_append
      obtain ⟨_, _, hd, hle, hall⟩ := ih m' (fun k hk => ihn k (by omega)) hrest hends'
      refine ⟨_, _, hd.cons, by omega, List.forall_mem_cons.2 ⟨?_, fun x hx => ?_⟩⟩
      · exact ⟨part, events, _, m, hpart, hends, by omega⟩
      · obtain ⟨_, _, _, k, hrun, hk, hkle⟩ := hall x hx
        exact ⟨_, _, _, k, hrun, hk, by omega⟩
    | suspended s hs =>
      obtain ⟨c, _, m, hc, rfl, hends⟩ := h.exists_force (hb.isMature hs)
      obtain ⟨s', _, hf, hmaps⟩ := hb.exists_of_force hs hc
      obtain ⟨_, _, hs', hle, hall⟩ := ihn m (Nat.lt_succ_self m) hmaps hends
      refine ⟨_, _, hs'.force hs hf, by omega, fun x hx => ?_⟩
      obtain ⟨_, _, _, k, hrun, hk, hkle⟩ := hall x hx
      exact ⟨_, _, _, k, hrun, hk, by omega⟩

/-- A sum is finite when all its terms are. -/
theorem sum_ne_top_iff {terms : List ℕ∞} : terms.sum ≠ ⊤ ↔ ∀ m ∈ terms, m ≠ ⊤ := by
  induction terms with
  | nil => simp
  | cons m terms ih => simp_all [ENat.add_eq_top]

namespace Supplies

/-- Where the stream of elements ends, the streams for its elements are forced as often as it and each
of them. -/
theorem forcings_eq (h : Supplies run f g s) (hb : Maps run f s b) (hs : s.Ends run items n) :
    forcings run b = n + (items.map fun a => forcings run (g a)).sum := by
  induction hs generalizing b with
  | empty => simp [maps_empty.1 hb]
  | cons _ ih =>
    obtain ⟨_, hpart, -⟩ := h 0 _ rfl
    obtain ⟨rest, hrest⟩ := h.tail.exists_maps
    rw [hb.eq_append hpart hrest, forcings_append, ih h.tail hrest, List.map_cons, List.sum_cons,
      add_left_comm]
  | force hs hf _ ih =>
    obtain ⟨c, hc⟩ := (h.force hs hf).exists_maps
    obtain ⟨hbs, _, hbf⟩ := hb.exists_force hs hf hc
    rw [forcings_of_value hbs hbf, ih (h.force hs hf) hc, Nat.cast_succ, add_right_comm]

/-- The streams for the elements end together when the stream of elements and each of them do. -/
theorem ends_iff (h : Supplies run f g s) (hb : Maps run f s b) :
    (∃ out m, b.Ends run out m) ↔ (∃ items n, s.Ends run items n) ∧
      ∀ i a, s.EmitsNth run i a → ∃ out m, (g a).Ends run out m := by
  have hfinite : ∀ {items n}, s.Ends run items n →
      (forcings run b ≠ ⊤ ↔ ∀ i a, s.EmitsNth run i a → forcings run (g a) ≠ ⊤) := by
    intro items n hs
    have hterms : (items.map fun a => forcings run (g a)).sum ≠ ⊤ ↔
        ∀ a ∈ items, forcings run (g a) ≠ ⊤ := by simp [sum_ne_top_iff]
    rw [h.forcings_eq hb hs, Ne, ENat.add_eq_top, not_or, ← Ne, ← Ne, hterms]
    simp only [hs.emitsNth_iff, List.mem_iff_getElem?]
    exact ⟨fun ⟨_, hall⟩ i a ha => hall a ⟨i, ha⟩,
      fun hall => ⟨ENat.natCast_ne_top n, fun a ⟨i, ha⟩ => hall i a ha⟩⟩
  constructor
  · rintro ⟨out, m, hends⟩
    obtain ⟨items, n, hs, -⟩ := hb.exists_ends hends
    have hall := (hfinite hs).1 (forcings_ne_top_iff.2 ⟨out, m, hends⟩)
    exact ⟨⟨items, n, hs⟩, fun i a ha => forcings_ne_top_iff.1 (hall i a ha)⟩
  · rintro ⟨⟨items, n, hs⟩, hall⟩
    exact forcings_ne_top_iff.1 ((hfinite hs).2 fun i a ha => forcings_ne_top_iff.2 (hall i a ha))

end Supplies

/-! ## The main statement -/

/-- A stream without faults of which every element is mapped to a stream without faults is mapped to a
stream without faults. It emits at as many steps as there are pairs of an element and of an element of
its stream, and at each what the pair says, in the order of the second elements where the first one is
the same. It ends if and only if the stream of elements and the streams for all of them do, and is
forced as often as all of these together. -/
theorem appendMap_emissions (hs : s.Faultless run) (hg : Supplies run f g s) :
    ∃ b events, s.appendMap (run f) f = .value b events ∧ b.Faultless run ∧
      (∃ e : {k // ∃ x, b.EmitsAt run k x} ≃
          {p : Nat × Nat // ∃ a x, s.EmitsNth run p.1 a ∧ (g a).EmitsNth run p.2 x},
        (∀ k x, b.EmitsAt run k.1 x →
          ∃ a, s.EmitsNth run (e k).1.1 a ∧ (g a).EmitsNth run (e k).1.2 x) ∧
        ∀ k k', (e k).1.1 = (e k').1.1 → ((e k).1.2 < (e k').1.2 ↔ k.1 < k'.1)) ∧
      ((∃ out m, b.Ends run out m) ↔ (∃ items n, s.Ends run items n) ∧
        ∀ i a, s.EmitsNth run i a → ∃ out m, (g a).Ends run out m) ∧
      ∀ items n, s.Ends run items n →
        forcings run b = n + (items.map fun a => forcings run (g a)).sum := by
  obtain ⟨b, events, hmap⟩ := hg.exists_maps
  have hb : Maps run f s b := ⟨events, hmap⟩
  have hfaultless := hg.faultless hs hb
  exact ⟨b, events, hmap, hfaultless, hg.exists_equiv hb hfaultless, hg.ends_iff hb,
    fun items n hends => hg.forcings_eq hb hends⟩

/-- Of the stream of all numbers each is mapped to the stream that repeats it for ever. Each number is
emitted again and again: there is a step for every number and every repetition of it. -/
theorem appendMap_emissions_repeated :
    let run : Bool → Nat → Logged (LazyStream Bool Nat) := fun same n =>
      pure (cons n (delay same (if same then n else n + 1)))
    let s : LazyStream Bool Nat := delay false 0
    let g : Nat → LazyStream Bool Nat := fun n => cons n (delay true n)
    s.Faultless run ∧ Supplies run true g s ∧
      ∃ b events, s.appendMap (run true) true = .value b events ∧
        ∃ place : Nat × Nat → Nat, Function.Injective place ∧
          ∀ n j, b.EmitsAt run (place (n, j)) n := by
  intro run s g
  have hrun : ∀ same, Keeps (fun _ => False) (fun _ _ => True) same (run same) :=
    fun _ _ _ _ => ⟨trivial, trivial⟩
  have hpending : ∀ t : LazyStream Bool Nat, t.Pending (fun _ _ => True) [] → t.Faultless run :=
    fun t => Pending.faultless hrun
  have hfaultless : s.Faultless run := hpending s trivial
  have hsupplies : Supplies run true g s := fun _ a _ => ⟨[], rfl, hpending (g a) ⟨trivial, trivial⟩⟩
  have hfrom : ∀ i m, (delay false m).EmitsNth run i (m + i) := by
    intro i
    induction i with
    | zero => exact fun m => (emitsNth_of_value rfl rfl).2 (emitsNth_cons_zero.2 rfl)
    | succ i ih =>
      intro m
      rw [emitsNth_of_value rfl rfl, emitsNth_cons_succ, ← Nat.add_assoc, Nat.add_right_comm]
      exact ih (m + 1)
  have hnumbers : ∀ n, s.EmitsNth run n n := fun n => by simpa using hfrom n 0
  have hrepeated : ∀ j n, (g n).EmitsNth run j n := by
    intro j n
    induction j with
    | zero => exact emitsNth_cons_zero.2 rfl
    | succ j ih => exact emitsNth_cons_succ.2 ((emitsNth_of_value rfl rfl).2 ih)
  obtain ⟨b, events, hb, -, ⟨e, hemits, -⟩, -⟩ := appendMap_emissions hfaultless hsupplies
  let pair : Nat × Nat → {p : Nat × Nat // ∃ a x, s.EmitsNth run p.1 a ∧ (g a).EmitsNth run p.2 x} :=
    fun p => ⟨p, p.1, p.1, hnumbers p.1, hrepeated p.2 p.1⟩
  refine ⟨hfaultless, hsupplies, b, events, hb, fun p => e.symm (pair p), ?_, fun n j => ?_⟩
  · intro p p' heq
    exact congrArg Subtype.val (e.symm.injective (Subtype.ext heq))
  · obtain ⟨x, hx⟩ := (e.symm (pair (n, j))).2
    obtain ⟨a, ha, hax⟩ := hemits _ x hx
    rw [Equiv.apply_symm_apply] at ha hax
    obtain rfl : a = n := ha.unique (hnumbers n)
    obtain rfl : x = a := hax.unique (hrepeated j a)
    exact hx

end Relational.LazyStream
