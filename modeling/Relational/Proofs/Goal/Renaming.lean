import Mathlib.GroupTheory.Perm.ViaEmbedding
import Relational.Proofs.Goal.Freshness

/-!
# Renaming allocated variables

The equations of an unfolding from another counter are the same up to the names of the variables that
are allocated (`Unfolding.equations_rename`), and whether a valuation solves renamed equations is
whether it solves the old ones when it is taken at the new names (`solves_rename`). When two parts of
a goal change places, the variables of the first part come behind those of the second one:
`Var.exchange` is the permutation that undoes this.
-/

namespace Relational

/-! ## Exchanging blocks of variables -/

/-- The permutation of numbers that exchanges the `m` numbers from `c` on with the `n` numbers behind
them. -/
def exchangeBlocks (c m n : Nat) : Equiv.Perm Nat where
  toFun k := if k < c then k else if k < c + m then k + n else if k < c + m + n then k - m else k
  invFun k := if k < c then k else if k < c + n then k + m else if k < c + n + m then k - n else k
  left_inv k := by
    dsimp only
    split_ifs <;> omega
  right_inv k := by
    dsimp only
    split_ifs <;> omega

namespace Var

variable {c m n i : Nat} {x : Var}

/-- The permutation of variables that exchanges the `m` variables allocated from `c` on with the `n`
variables behind them. -/
noncomputable def exchange (c m n : Nat) : Equiv.Perm Var :=
  (exchangeBlocks c m n).viaEmbedding ⟨fresh, fun _ _ => fresh_injective⟩

theorem exchange_fresh (c m n k : Nat) :
    exchange c m n (fresh k) = fresh (exchangeBlocks c m n k) :=
  (exchangeBlocks c m n).viaEmbedding_apply ⟨fresh, fun _ _ => fresh_injective⟩ k

/-- The first block comes behind the second one. -/
theorem exchange_first (h : i < m) : exchange c m n (fresh (c + i)) = fresh (c + n + i) := by
  have hblocks : exchangeBlocks c m n (c + i) = c + n + i := by
    show (if c + i < c then c + i else if c + i < c + m then c + i + n else _) = _
    rw [if_neg (by omega), if_pos (by omega)]
    omega
  rw [exchange_fresh, hblocks]

/-- The second block comes before the first one. -/
theorem exchange_second (h : i < n) : exchange c m n (fresh (c + m + i)) = fresh (c + i) := by
  have hblocks : exchangeBlocks c m n (c + m + i) = c + i := by
    show (if c + m + i < c then _ else if c + m + i < c + m then _ else
      if c + m + i < c + m + n then c + m + i - m else _) = _
    rw [if_neg (by omega), if_neg (by omega), if_pos (by omega)]
    omega
  rw [exchange_fresh, hblocks]

/-- Older variables stay in their places. -/
theorem exchange_older (h : x.Older c) : exchange c m n x = x := by
  by_cases hx : x ∈ Set.range fresh
  · obtain ⟨k, rfl⟩ := hx
    have hk : k < c := by
      by_contra hk
      exact h k (Nat.le_of_not_lt hk) rfl
    have hblocks : exchangeBlocks c m n k = k := if_pos hk
    rw [exchange_fresh, hblocks]
  · exact (exchangeBlocks c m n).viaEmbedding_apply_of_notMem _ x hx

end Var

/-! ## Renamed equations -/

/-- The equations with other names for the variables. -/
def Equations.rename (f : Var → Var) (es : Equations) : Equations :=
  es.map fun e => (e.1.mapVars fun x => .var (f x), e.2.mapVars fun x => .var (f x))

/-- Solving renamed equations is solving the equations at the new names. -/
theorem Valuation.solves_rename {σ : Valuation} {es : Equations} (f : Var → Var) :
    σ.Solves (es.rename f) ↔ Valuation.Solves (σ ∘ f) es := by
  rw [Equations.rename, Valuation.Solves, List.forall_mem_map]
  simp only [Term.mapVars_mapVars, Term.mapVars_var]
  exact Iff.rfl

/-- From another counter an unfolding has the same equations, up to the names of the variables that
are allocated. The terms that names stand for are renamed in the same way. -/
theorem Unfolding.equations_rename {p : Program} {g : Goal} {ρ ρ' : Scope} {c k l : Nat}
    {f : Var → Var} (a : Unfolding p g) (hp : p.Admissible c) (hg : g.Saturated p)
    (hold : ∀ x, x.Older c → f x = x) (hρ : ρ.Denotes (fun x => .var (f x)) ρ'.value g)
    (hf : ∀ i < a.allocated, f (.fresh (k + i)) = .fresh (l + i)) :
    a.equations ρ' l = (a.equations ρ k).rename f := by
  induction a generalizing ρ ρ' k l with
  | succeed => rfl
  | eq =>
    have hu := hρ.instantiate fun x hx => List.mem_append_left _ hx
    have hv := hρ.instantiate fun x hx => List.mem_append_right _ hx
    exact congrArg₂ (fun t u => [(t, u)]) hu.symm hv.symm
  | left a ih => exact ih hg.1 hρ.left hf
  | right a ih => exact ih hg.2 hρ.right hf
  | conj a b iha ihb =>
    have hfirst := iha hg.1 hρ.left fun i hi => hf i (Nat.lt_add_right _ hi)
    have hsecond := ihb (k := k + a.allocated) (l := l + a.allocated) hg.2 hρ.right fun i hi => by
      rw [Nat.add_assoc, Nat.add_assoc]
      exact hf _ (Nat.add_lt_add_left hi _)
    rw [equations, equations, hfirst, hsecond, Equations.rename, Equations.rename,
      Equations.rename, List.map_append]
  | fresh a ih =>
    have hfirst : f (.fresh k) = .fresh l := hf 0 (Nat.succ_pos _)
    have hbody := hρ.fresh (y := .fresh k)
    rw [hfirst, ← Scope.value_cons] at hbody
    refine ih hg hbody fun i hi => ?_
    have hnext := hf (i + 1) (Nat.succ_lt_succ hi)
    rwa [Nat.add_comm i 1, ← Nat.add_assoc, ← Nat.add_assoc] at hnext
  | @call r args a ih =>
    have hbody := hρ.call (σ := .var) hg fun x hx =>
      congrArg Term.var (hold x (hp.older_definition r x hx))
    exact ih (hp.saturated_definition r) hbody hf

end Relational
