import Relational.Proofs.LazyStream.Pairing
import Relational.Proofs.LazyStream.Pulling

/-!
# Streams pulled to their end

Without a limit a stream is pulled to its end (`pulled_all_iff`). The streams for the elements of a
stream come to their end together where the stream and each of them does: then all of their elements
have been emitted, in some order, and each suspension has been forced once (`Ends.exists_maps`).
-/

namespace Relational.LazyStream

variable {κ α : Type} {run : κ → α → Logged (LazyStream κ α)} {f : κ} {s : LazyStream κ α}
  {items : List α} {n : Nat}

/-- Without a limit, the end is what a stream is pulled to. -/
theorem pulled_all_iff : Pulled run .all s items n ↔ s.Ends run items n := by
  constructor
  · intro h
    generalize hlimit : Limit.all = limit at h
    induction h with
    | reached h =>
      subst hlimit
      cases h
    | stop => exact .empty
    | cons _ _ ih =>
      subst hlimit
      exact (ih rfl).cons
    | force _ hs hf _ ih => exact (ih hlimit).force hs hf
  · intro h
    induction h with
    | empty => exact .stop
    | cons _ ih => exact .cons rfl ih
    | force hs hf _ ih => exact .force rfl hs hf ih

/-- A loop that collects the elements of a stream without faults does not fault, though it may not come
to its end. -/
theorem Faultless.eq_unending {limit : Limit} {rounds : Nat} {e : Fault} (hs : s.Faultless run)
    (h : s.collect run rounds limit = .fault e) : e = .unending := by
  suffices hloop : ∀ (s : LazyStream κ α) (reversed : List α) (produced forced : Nat),
      s.Faultless run → Logged.iterate (collectRound run limit) rounds
        ⟨reversed, produced, forced, s⟩ = .fault e → e = .unending from hloop s [] 0 0 hs h
  clear hs h
  induction rounds with
  | zero =>
    intro s reversed produced forced _ h
    cases h
    rfl
  | succ rounds ih =>
    intro s reversed produced forced hs h
    rw [Logged.iterate_succ] at h
    cases hlimit : limit.isReached produced with
    | true =>
      rw [collectRound_of_reached hlimit, pure_bind] at h
      cases h
    | false =>
      induction s using matureInduction with
      | empty =>
        rw [collectRound_empty, pure_bind] at h
        cases h
      | cons a d =>
        rw [collectRound_cons hlimit, pure_bind, Sum.elim_inl] at h
        exact ih d _ _ _ (faultless_cons.1 hs) h
      | suspended s hsus =>
        obtain ⟨s', _, hf, hs'⟩ := hs.exists_force hsus
        rw [collectRound_of_suspended hlimit hsus, hf, bind_assoc, Logged.value_bind, pure_bind,
          Sum.elim_inl] at h
        cases hrest : Logged.iterate (collectRound run limit) rounds
            ⟨reversed, produced, forced + 1, s'⟩ with
        | value found log =>
          rw [hrest] at h
          cases h
        | fault e' =>
          rw [hrest] at h
          cases h
          exact ih s' _ _ _ hs' hrest

/-- Where a stream ends and the streams for its elements do, they end together. The elements are those
of all these streams, and the forcings are those of all of them and of the stream itself. -/
theorem Ends.exists_maps {out : α → List α} {cost : α → Nat} (h : s.Ends run items n)
    (hparts : ∀ a ∈ items, ∃ part events out', run f a = .value part events ∧
      part.Ends run out' (cost a) ∧ out'.Perm (out a)) :
    ∃ b out', Maps run f s b ∧ b.Ends run out' (n + (items.map cost).sum) ∧
      out'.Perm (items.flatMap out) := by
  induction h with
  | empty => exact ⟨_, [], maps_empty.2 rfl, .empty, .nil⟩
  | @cons a d items n _ ih =>
    obtain ⟨⟨part, events, out₁, hpart, hends, hperm⟩, hrest⟩ := List.forall_mem_cons.1 hparts
    obtain ⟨rest, out₂, hmaps, hends', hperm'⟩ := ih hrest
    obtain ⟨out', hout', happend⟩ := hends.append hends'
    refine ⟨part.append rest, out', maps_cons.2 ⟨part, events, rest, hpart, hmaps, rfl⟩, ?_,
      hout'.trans (hperm.append hperm')⟩
    rwa [List.map_cons, List.sum_cons, Nat.add_left_comm]
  | @force s s' _ items n hs hf _ ih =>
    obtain ⟨c, out', hmaps, hends, hperm⟩ := ih hparts
    obtain ⟨_, hforce⟩ := (exists_force_bind_iff hf).2 hmaps
    refine ⟨bind s f, out', (maps_of_suspended hs).2 rfl, ?_, hperm⟩
    rw [Nat.add_right_comm]
    exact hends.force rfl hforce

end Relational.LazyStream
