import Relational.Proofs.LazyStream.Forcing
import Relational.Proofs.LazyStream.Mapping
import Relational.Proofs.LazyStream.Pulling

/-!
# What a stream yields

What a stream yields up to a limit is what is pulled, whatever the number of forcings
(`LazyStream.Yields`). So forcings before the first element do not matter (`Yields.of_forcesTo`), and
an element that comes first takes its part of the limit (`Yields.behind`). The rules for single
forcings say how the suspensions of appended streams and of mapped streams go on
(`ForcesTo.append`, `ForcesTo.bind`); a stream that has at most one element is that of an option
(`maps_option`).
-/

namespace Relational.LazyStream

variable {κ α : Type} {run : κ → α → Logged (LazyStream κ α)} {f : κ} {limit : Limit}
  {s s' t t' b : LazyStream κ α} {items : List α} {o : Option α} {n : Nat}

/-! ## Single forcings -/

theorem forcesTo_one_iff : ForcesTo run s 1 t ↔
    s.isMature = false ∧ ∃ log, s.force run = .value t log := by
  constructor
  · rintro (_ | ⟨hs, hf, _ | _⟩)
    exact ⟨hs, _, hf⟩
  · rintro ⟨hs, log, hf⟩
    exact .force hs hf .refl

namespace ForcesTo

/-- When both of two streams are suspended, the first one is forced and then the second one, and the
first one is first again. -/
theorem append (hs : ForcesTo run s 1 s') (ht : ForcesTo run t 1 t') :
    ForcesTo run (s.append t) 2 (s'.append t') := by
  obtain ⟨hssus, _, hsf⟩ := forcesTo_one_iff.1 hs
  obtain ⟨htsus, _, htf⟩ := forcesTo_one_iff.1 ht
  rw [append_of_suspended hssus]
  refine .force rfl (force_swap_of_value hsf t) ?_
  rw [append_of_suspended htsus]
  exact .force rfl (force_swap_of_value htf s') .refl

theorem append_empty (h : ForcesTo run s 1 t) : ForcesTo run (s.append empty) 1 t := by
  obtain ⟨hs, _, hf⟩ := forcesTo_one_iff.1 h
  rw [append_of_suspended hs]
  exact .force rfl (force_swap_of_value hf empty) .refl

/-- When the elements of a suspended stream are mapped to streams, they are those of what it is forced
to. -/
theorem bind (h : ForcesTo run s 1 s') (hb : Maps run f s' b) : ForcesTo run (bind s f) 1 b := by
  obtain ⟨_, _, hf⟩ := forcesTo_one_iff.1 h
  obtain ⟨_, hforce⟩ := (exists_force_bind_iff hf).2 hb
  exact .force rfl hforce .refl

end ForcesTo

/-! ## At most one element -/

/-- The stream for the one element that there may be. -/
theorem maps_option {g : α → LazyStream κ α} (h : ∀ a ∈ o, ∃ log, run f a = .value (g a) log) :
    Maps run f (ofList o.toList) (o.elim empty fun a => (g a).append empty) := by
  cases o with
  | none => exact maps_empty.2 rfl
  | some a =>
    obtain ⟨log, hlog⟩ := h a rfl
    exact maps_cons.2 ⟨g a, log, empty, hlog, maps_empty.2 rfl, rfl⟩

/-- Nothing comes behind the one element that there may be. -/
theorem ofList_option_append_empty (o : Option α) :
    (ofList o.toList : LazyStream κ α).append empty = ofList o.toList := by
  cases o <;> rfl

/-! ## Yielding -/

/-- Up to the limit the stream has these elements. -/
def Yields (run : κ → α → Logged (LazyStream κ α)) (limit : Limit) (s : LazyStream κ α)
    (items : List α) : Prop :=
  ∃ n, Pulled run limit s items n

theorem yields_empty : Yields run limit empty [] := ⟨0, .stop⟩

theorem yields_of_reached (h : limit.isReached 0 = true) : Yields run limit s [] :=
  ⟨0, .reached h⟩

namespace Yields

/-- What comes after some forcings is what is yielded. -/
theorem of_forcesTo (h : ForcesTo run s n t) (ht : Yields run limit t items) :
    Yields run limit s items := by
  cases hlimit : limit.isReached 0 with
  | true =>
    obtain ⟨_, ht⟩ := ht
    cases ht with
    | reached | stop => exact yields_of_reached hlimit
    | cons hopen | force hopen => rw [hlimit] at hopen; cases hopen
  | false =>
    induction h with
    | refl => exact ht
    | force hs hf _ ih =>
      obtain ⟨m, hm⟩ := ih ht
      exact ⟨m + 1, hm.force hlimit hs hf⟩

/-- An element that may come first takes its part of the limit. -/
theorem behind (hlimit : limit.isReached 0 = false)
    (h : Yields run (limit.less o.toList.length) t items) :
    Yields run limit ((ofList o.toList).append t) (o.toList ++ items) := by
  cases o with
  | none =>
    rw [Option.toList_none, List.length_nil, Limit.less_zero] at h
    exact h
  | some a =>
    obtain ⟨m, hm⟩ := h
    have happend : (ofList (some a).toList).append t = cons a t := cons_append a empty t
    rw [happend]
    exact ⟨m, hm.cons hlimit⟩

/-- Nothing comes behind a stream that is alone. -/
theorem append_empty (hs : s.isMature = false) (h : Yields run limit s items) :
    Yields run limit (s.append empty) items := by
  obtain ⟨m, hm⟩ := h
  rw [append_of_suspended hs]
  cases hm with
  | reached h => exact yields_of_reached h
  | stop | cons => cases hs
  | force hlimit _ hf hrest => exact ⟨_, hrest.force hlimit rfl (force_swap_of_value hf empty)⟩

end Yields

end Relational.LazyStream
