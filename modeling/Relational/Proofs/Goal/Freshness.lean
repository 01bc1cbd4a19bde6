import Relational.Proofs.Goal.Naming
import Relational.Proofs.Goal.Unfolding

/-!
# Fresh variables

Variables are allocated from a counter, and a variable is older than the counter when it is none of
those that are still to come (`Var.Older`). A goal and a program are scoped at a counter when no call
leaves a parameter without an argument and all variables that they mention are older than the counter
(`Goal.Scoped`, `Program.Scoped`), and admissible when they are pure besides (`Goal.Admissible`,
`Program.Admissible`). Then an unfolding mentions older variables and those that it has allocated
itself, and no others (`Unfolding.equations_older`).
-/

namespace Relational

/-! ## Older variables -/

namespace Var

/-- The variable is not allocated at the counter `c` or later. -/
def Older (c : Nat) (x : Var) : Prop := ∀ n, c ≤ n → x ≠ fresh n

variable {c d : Nat} {x : Var}

theorem Older.mono (h : x.Older c) (hcd : c ≤ d) : x.Older d := fun n hn => h n (hcd.trans hn)

theorem older_fresh {n : Nat} (h : n < c) : (fresh n).Older c := by
  intro m hm heq
  have hnm := fresh_injective heq
  omega

/-- A variable whose name begins otherwise than the names of allocated variables is never allocated. -/
theorem older_of_head_ne (h : x.name.toList.head? ≠ some 'v') (c : Nat) : x.Older c := by
  rintro n _ rfl
  exact h (by simp [fresh])

end Var

/-- A goal with enough arguments that mentions no variable allocated at the counter or later. -/
structure Goal.Scoped (p : Program) (c : Nat) (g : Goal) : Prop where
  saturated : g.Saturated p
  older : ∀ x ∈ g.free, x.Older c

/-- A program of which the relations have bodies with enough arguments that mention no variable
allocated at the counter or later. -/
structure Program.Scoped (p : Program) (c : Nat) : Prop where
  saturated : ∀ d ∈ p, d.2.body.Saturated p
  older : ∀ d ∈ p, ∀ x ∈ d.2.free, x.Older c

/-- A pure goal with enough arguments that mentions no variable allocated at the counter or later. -/
structure Goal.Admissible (p : Program) (c : Nat) (g : Goal) : Prop where
  pure : g.Pure
  saturated : g.Saturated p
  older : ∀ x ∈ g.free, x.Older c

/-- A program of which all relations have admissible bodies, parameters apart. -/
structure Program.Admissible (p : Program) (c : Nat) : Prop where
  pure : p.Pure
  saturated : ∀ d ∈ p, d.2.body.Saturated p
  older : ∀ d ∈ p, ∀ x ∈ d.2.free, x.Older c

namespace Program

variable {p : Program} {c d : Nat}

/-- The relations that every program has give their calls enough arguments. -/
theorem Scoped.saturated_definition (hp : p.Scoped c) (r : RelName) :
    (p.definition r).body.Saturated p := by
  cases r with
  | defined name =>
    rcases p.definition_defined name with h | ⟨d, hd, h⟩
    · rw [h]
      trivial
    · rw [h]
      exact hp.saturated d hd
  | conso | caro | cdro | nullo => trivial
  | membero => exact ⟨Nat.le_refl 2, Nat.le_refl 2, Nat.le_refl 2⟩
  | appendo =>
    exact ⟨⟨Nat.le_refl 1, trivial⟩, Nat.le_refl 3, Nat.le_refl 3, Nat.le_refl 3⟩
  | nevero => exact Nat.le_refl 0
  | alwayso => exact ⟨trivial, Nat.le_refl 0⟩

/-- The relations that every program has mention nothing beside their parameters. -/
theorem Scoped.older_definition (hp : p.Scoped c) (r : RelName) :
    ∀ x ∈ (p.definition r).free, x.Older c := by
  cases r with
  | defined name =>
    rcases p.definition_defined name with h | ⟨d, hd, h⟩
    · rw [h]
      exact fun x hx => nomatch hx
    · rw [h]
      exact hp.older d hd
  | conso | caro | cdro | nullo | membero | appendo | nevero | alwayso =>
    exact fun x hx => nomatch hx

theorem Scoped.mono (hp : p.Scoped c) (hcd : c ≤ d) : p.Scoped d :=
  ⟨hp.saturated, fun e he x hx => (hp.older e he x hx).mono hcd⟩

theorem Admissible.scoped (hp : p.Admissible c) : p.Scoped c := ⟨hp.saturated, hp.older⟩

theorem Admissible.saturated_definition (hp : p.Admissible c) (r : RelName) :
    (p.definition r).body.Saturated p := hp.scoped.saturated_definition r

theorem Admissible.older_definition (hp : p.Admissible c) (r : RelName) :
    ∀ x ∈ (p.definition r).free, x.Older c := hp.scoped.older_definition r

/-- The relations that every program has are admissible by themselves. -/
theorem admissible_nil (c : Nat) : Admissible [] c :=
  ⟨(fun _ h => nomatch h), (fun _ h => nomatch h), (fun _ h => nomatch h)⟩

theorem Admissible.mono (hp : p.Admissible c) (hcd : c ≤ d) : p.Admissible d :=
  ⟨hp.pure, hp.saturated, fun e he x hx => (hp.older e he x hx).mono hcd⟩

end Program

/-! ## Variables of unfoldings -/

variable {p : Program} {g h : Goal} {ρ : Scope} {c : Nat}

/-- All variables in what the names of a goal stand for are older than the counter. -/
def Scope.Older (c : Nat) (ρ : Scope) (g : Goal) : Prop :=
  ∀ x ∈ g.free, ∀ y ∈ (ρ.value x).vars, y.Older c

namespace Scope.Older

theorem mono {d : Nat} (hρ : ρ.Older c g) (hcd : c ≤ d) : ρ.Older d g :=
  fun x hx y hy => (hρ x hx y hy).mono hcd

theorem instantiate {t : Term} (hρ : ρ.Older c g) (ht : ∀ x ∈ t.vars, x ∈ g.free) :
    ∀ y ∈ (ρ.instantiate t).vars, y.Older c := by
  intro y hy
  obtain ⟨x, hx, hyx⟩ := Term.mem_vars_mapVars.1 hy
  exact hρ x (ht x hx) y hyx

theorem of_subset (hρ : ρ.Older c g) (hfree : h.free ⊆ g.free) : ρ.Older c h :=
  fun x hx => hρ x (hfree hx)

theorem left (hρ : ρ.Older c (.disj g h)) : ρ.Older c g :=
  hρ.of_subset (List.subset_append_left ..)

theorem right (hρ : ρ.Older c (.disj g h)) : ρ.Older c h :=
  hρ.of_subset (List.subset_append_right ..)

/-- A variable that is allocated is older than the next counter. -/
theorem fresh {x : Var} (hρ : ρ.Older c (.fresh x g)) :
    Scope.Older (c + 1) ((x, .var (.fresh c)) :: ρ) g := by
  intro z hz y hy
  rw [value_cons] at hy
  by_cases hzx : z = x
  · rw [hzx, Function.update_self, Term.vars_var, List.mem_singleton] at hy
    rw [hy]
    exact Var.older_fresh (Nat.lt_succ_self c)
  · rw [Function.update_of_ne hzx] at hy
    have hfree : z ∈ (Goal.fresh x g).free := List.mem_filter.2 ⟨hz, by simpa using hzx⟩
    exact (hρ z hfree y hy).mono (Nat.le_succ c)

/-- What a relation mentions is older than the counter when its arguments are. -/
theorem call {r : RelName} {args : List Term} (hp : p.Scoped c)
    (hg : (Goal.call r args).Saturated p) (hρ : ρ.Older c (.call r args)) :
    Scope.Older c (.ofArgs (p.definition r).params (args.map ρ.instantiate))
      (p.definition r).body := by
  intro z hz y hy
  rw [value, lookup_ofArgs_map] at hy
  rcases lookup_ofArgs hg z with ⟨t, ht, hlookup⟩ | ⟨hparam, hlookup⟩
  · rw [hlookup] at hy
    exact hρ.instantiate (fun x hx => List.mem_flatMap.2 ⟨t, ht, hx⟩) y hy
  · rw [hlookup] at hy
    obtain rfl : y = z := by simpa using hy
    exact hp.older_definition r y (List.mem_filter.2 ⟨hz, by simpa using hparam⟩)

end Scope.Older

/-- The variables of the equations of an unfolding are older than the counter that it leaves. -/
theorem Unfolding.equations_older (a : Unfolding p g) (hp : p.Admissible c) (hg : g.Saturated p)
    (hρ : ρ.Older c g) : (a.equations ρ c).All (Var.Older (c + a.allocated)) := by
  induction a generalizing ρ c with
  | succeed => exact fun _ he => nomatch he
  | eq =>
    intro e he
    obtain rfl := List.mem_singleton.1 he
    exact ⟨hρ.instantiate fun x hx => List.mem_append_left _ hx,
      hρ.instantiate fun x hx => List.mem_append_right _ hx⟩
  | left a ih => exact ih hp hg.1 hρ.left
  | right a ih => exact ih hp hg.2 hρ.right
  | conj a b iha ihb =>
    have hfirst := iha hp hg.1 hρ.left
    have hle : c ≤ c + a.allocated := Nat.le_add_right ..
    have hsecond := ihb (hp.mono hle) hg.2 (hρ.right.mono hle)
    intro e he
    rcases List.mem_append.1 he with he | he
    · have ⟨hu, hv⟩ := hfirst e he
      have hmono : c + a.allocated ≤ c + (a.allocated + b.allocated) := by omega
      exact ⟨fun x hx => (hu x hx).mono hmono, fun x hx => (hv x hx).mono hmono⟩
    · rw [allocated, ← Nat.add_assoc]
      exact hsecond e he
  | fresh a ih =>
    have hcount : c + (a.allocated + 1) = c + 1 + a.allocated := by omega
    rw [allocated, hcount]
    exact ih (hp.mono (Nat.le_succ c)) hg hρ.fresh
  | call a ih => exact ih hp (hp.saturated_definition _) (hρ.call hp.scoped hg)

end Relational
