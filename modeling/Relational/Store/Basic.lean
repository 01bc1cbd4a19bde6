import Relational.Term.Traverse

/-!
# Stores

A store binds variables to terms. Its bindings stand in the order in which they were made, the newest
one first, and a value may mention variables that are bound in the store themselves: bindings are
triangular, and `walk` and `walkStar` follow them.

A store is *acyclic* when no chain of bindings comes back to the variable it started from. Following
bindings ends in every acyclic store, and along one path no variable is met twice; so the operations
here go along a path for as many terms as the store can put there (`pathBound`), and give up with
`Fault.unending` after that.
-/

namespace Relational

/-- How large bindings are together: each one counts its variable and the size of its value. -/
def bindingsLoad : List (Var × Term) → Nat
  | [] => 0
  | (_, t) :: older => t.size + 1 + bindingsLoad older

/-- An association of variables with terms. -/
structure Store where
  /-- The bindings, the newest one first. -/
  bindings : List (Var × Term)
  /-- How many bindings there are. -/
  size : Nat
  size_eq : size = bindings.length
  /-- How large the bindings are together. -/
  load : Nat
  load_eq : load = bindingsLoad bindings

namespace Store

theorem ext {s r : Store} (h : s.bindings = r.bindings) : s = r := by
  obtain ⟨_, _, rfl, _, rfl⟩ := s
  obtain ⟨_, _, rfl, _, rfl⟩ := r
  cases h
  rfl

/-- Two stores are equal when they have the same bindings in the same order. -/
instance : DecidableEq Store := fun s r =>
  decidable_of_iff (s.bindings = r.bindings) ⟨ext, fun h => h ▸ rfl⟩

/-- The store without bindings. -/
def empty : Store := ⟨[], 0, rfl, 0, rfl⟩

instance : Inhabited Store := ⟨empty⟩

/-- The store has no bindings. -/
def isEmpty (s : Store) : Bool := s.size == 0

/-- The newest binding of a variable. -/
def lookup (s : Store) (x : Var) : Option Term := s.bindings.lookup x

/-- The store with one more binding, which is not checked. -/
def push (s : Store) (x : Var) (t : Term) : Store where
  bindings := (x, t) :: s.bindings
  size := s.size + 1
  size_eq := by rw [s.size_eq, List.length_cons]
  load := t.size + 1 + s.load
  load_eq := by rw [s.load_eq, bindingsLoad]

/-- The binding that is made last decides. -/
theorem lookup_push (s : Store) (x y : Var) (t : Term) :
    (s.push x t).lookup y = if y = x then some t else s.lookup y := by
  simp only [lookup, push, List.lookup_cons]
  by_cases h : y = x
  · simp [h]
  · simp [beq_eq_false_iff_ne.2 h, h]

/-! ## Following bindings -/

/-- How many terms there can be along a path: the one it starts from, and one behind each binding,
which are not more than the bindings are large. -/
def pathBound (s : Store) : Nat := s.load + 1

/-- The term that a chain of bindings leads to, when it has at most `n` terms. -/
def walkWithin (s : Store) : Nat → Term → Except Fault Term
  | 0, _ => .error .unending
  | n + 1, .var x =>
    match s.lookup x with
    | none => .ok (.var x)
    | some t => s.walkWithin n t
  | _ + 1, t => .ok t

/-- The term that a term stands for: a bound variable stands for what its value stands for, and all
else stands for itself. -/
def walk (s : Store) (t : Term) : Except Fault Term := s.walkWithin s.pathBound t

/-- The list of the items, of which the last is given first, ending in a term with all bindings
applied, when there are at most `n` terms along a path. -/
def walkStarWithin (s : Store) : Nat → List Term → Term → Except Fault Term
  | 0 => fun _ _ => .error .unending
  | n + 1 => Term.rebuildOnto fun items x =>
    match s.lookup x with
    | none => .ok (.ofReversed items (.var x))
    | some t => s.walkStarWithin n items t

/-- The term with all bindings applied, in the values of bindings too. -/
def walkStar (s : Store) (t : Term) : Except Fault Term := s.walkStarWithin s.pathBound [] t

/-- The items before a term are put before its copy, also where the list goes on behind a variable. -/
theorem walkStarWithin_onto (s : Store) (n : Nat) (items : List Term) (t : Term) :
    s.walkStarWithin n items t = Term.ofReversed items <$> s.walkStarWithin n [] t := by
  induction n generalizing items t with
  | zero => rfl
  | succ n ih =>
    refine Term.rebuildOnto_eq (fun items x => ?_) items t
    match s.lookup x with
    | none => rfl
    | some u => exact ih items u

theorem walkStarWithin_var (s : Store) (n : Nat) (x : Var) :
    s.walkStarWithin (n + 1) [] (.var x) =
      match s.lookup x with
      | none => .ok (.var x)
      | some t => s.walkStarWithin n [] t := rfl

/-- Bindings are applied component by component. -/
theorem walkStarWithin_pair (s : Store) (n : Nat) (t u : Term) :
    s.walkStarWithin (n + 1) [] (.pair t u) =
      s.walkStarWithin (n + 1) [] t >>= fun t => s.walkStarWithin (n + 1) [] u >>= fun u =>
        .ok (.pair t u) := by
  refine Term.rebuildOnto_pair (fun items x => ?_) t u
  match s.lookup x with
  | none => rfl
  | some v => exact s.walkStarWithin_onto n items v

/-- Whether a term leads to the open variable `x`, when there are at most `n` terms along a path. -/
def occursWithin (s : Store) (x : Var) : Nat → Term → Except Fault Bool
  | 0 => fun _ => .error .unending
  | n + 1 => Term.searchVars fun y =>
    match s.lookup y with
    | none => .ok (decide (y = x))
    | some t => s.occursWithin x n t

/-- Whether the open variable `x` occurs in a term with all bindings applied. A variable that is bound
occurs nowhere. -/
def occurs (s : Store) (x : Var) (t : Term) : Except Fault Bool := s.occursWithin x s.pathBound t

/-! ## Adding bindings -/

/-- Binds `x` to a term. Binding a variable to itself changes nothing; a term in which `x` occurs is
refused. The newest binding decides, also when `x` was bound before. -/
def extend (s : Store) (x : Var) (t : Term) : Except Fault (Option Store) :=
  if t = .var x then .ok (some s)
  else match s.occurs x t with
    | .error e => .error e
    | .ok true => .ok none
    | .ok false => .ok (some (s.push x t))

/-- The store that has the given bindings, of which the first becomes the newest. Each one is added
to those after it, and all are refused when one is. -/
def ofBindings : List (Var × Term) → Except Fault (Option Store)
  | [] => .ok (some empty)
  | (x, t) :: older =>
    match ofBindings older with
    | .ok (some s) => s.extend x t
    | refused => refused

end Store

end Relational
