/-!
# Terms

The values that logic variables stand for: the empty list, symbols, variables and pairs. A list is
a chain of pairs along their second components, and the term behind the last pair is its tail; a
proper list has the empty list for its tail. Functions over terms nest along first components only
and go along the second components without nesting, so that long lists take no deep recursion.
-/

namespace Relational

/-- A logic variable. Two variables of the same name are the same variable. -/
structure Var where
  name : String
deriving DecidableEq

/-- The variable that is allocated at counter `n`. -/
def Var.fresh (n : Nat) : Var := ⟨"v" ++ n.repr⟩

/-- Numbered names that begin with the same text have the same number. -/
theorem eq_of_append_repr {text : String} {m n : Nat} (h : text ++ m.repr = text ++ n.repr) :
    m = n := by
  have hrepr : m.repr = n.repr := (String.append_right_inj text).1 h
  rw [Nat.repr_eq_ofList_toDigits, Nat.repr_eq_ofList_toDigits] at hrepr
  rw [← Nat.ofDigitChars_ten_toDigits (n := m), String.ofList_injective hrepr,
    Nat.ofDigitChars_ten_toDigits]

theorem Var.fresh_injective {m n : Nat} (h : fresh m = fresh n) : m = n :=
  eq_of_append_repr (congrArg Var.name h)

/-- The length of the longest name. -/
def Var.longest : List Var → Nat
  | [] => 0
  | x :: xs => max x.name.length (longest xs)

/-- A variable whose name is longer than the names of the given variables. -/
def Var.avoiding (xs : List Var) : Var :=
  ⟨String.ofList (List.replicate (longest xs + 1) 'q')⟩

theorem Var.length_le_longest {x : Var} {xs : List Var} (h : x ∈ xs) :
    x.name.length ≤ longest xs := by
  induction h with
  | head => exact Nat.le_max_left ..
  | tail _ _ ih => exact Nat.le_trans ih (Nat.le_max_right ..)

theorem Var.avoiding_not_mem (xs : List Var) : avoiding xs ∉ xs := by
  intro h
  have hle := length_le_longest h
  simp only [avoiding, String.length_ofList, List.length_replicate] at hle
  omega

/-- A term of the object language. -/
inductive Term where
  /-- The empty list. -/
  | nil
  /-- A constant, known by its text. -/
  | sym (text : String)
  /-- A variable. -/
  | var (x : Var)
  /-- A pair: one item of a list and what follows it. -/
  | pair (first second : Term)
with
  /-- How many terms a term consists of, itself among them. Every term carries the number with it: a
  term of few cells can consist of very many terms, when its pairs share their components. -/
  @[computed_field] size : Term → Nat
    | .nil => 1
    | .sym _ => 1
    | .var _ => 1
    | .pair a b => a.size + b.size + 1

namespace Term

instance : Inhabited Term := ⟨nil⟩

/-- The variable of a name, as a term. -/
def named (name : String) : Term := var ⟨name⟩

/-! ## Equality -/

/-- Equality of terms, decided item by item. -/
protected def beq : Term → Term → Bool
  | nil, nil => true
  | sym a, sym b => a == b
  | var x, var y => decide (x = y)
  | pair a b, pair c d => a.beq c && b.beq d
  | _, _ => false

theorem beq_iff {t u : Term} : t.beq u = true ↔ t = u := by
  induction t generalizing u with
  | nil | sym | var => cases u <;> simp [Term.beq]
  | pair a b iha ihb => cases u <;> simp [Term.beq, iha, ihb]

instance : DecidableEq Term := fun _ _ => decidable_of_iff _ beq_iff

/-! ## Lists -/

/-- The list of the items, ending in `tail`; with no items it is the tail itself. -/
def listWithTail (items : List Term) (tail : Term) : Term := items.foldr pair tail

/-- The proper list of the items. -/
def list (items : List Term) : Term := listWithTail items nil

/-- The list of the items, of which the last is given first, ending in `tail`. -/
def ofReversed (items : List Term) (tail : Term) : Term :=
  items.foldl (fun rest item => pair item rest) tail

theorem ofReversed_eq (items : List Term) (tail : Term) :
    ofReversed items tail = listWithTail items.reverse tail := by
  simp [ofReversed, listWithTail]

/-- The items of a list, together with its tail. -/
def spine : Term → List Term × Term := go []
where
  go (items : List Term) : Term → List Term × Term
    | pair a b => go (a :: items) b
    | t => (items.reverse, t)

theorem spine_go (items : List Term) (t : Term) :
    spine.go items t = (items.reverse ++ t.spine.1, t.spine.2) := by
  induction t generalizing items with
  | nil | sym | var => simp [spine, spine.go]
  | pair a b _ ihb =>
    simp only [spine, spine.go] at *
    rw [ihb, ihb [a]]
    simp

/-- A term is the list of its items, ending in its tail. -/
theorem listWithTail_spine (t : Term) : listWithTail t.spine.1 t.spine.2 = t := by
  induction t with
  | nil | sym | var => rfl
  | pair a b _ ihb =>
    rw [spine, spine.go, spine_go]
    exact congrArg (pair a) ihb

/-! ## Views -/

/-- The variable that a term is. -/
def var? : Term → Option Var
  | var x => some x
  | _ => none

/-- The text of the symbol that a term is. -/
def symbol? : Term → Option String
  | sym s => some s
  | _ => none

/-- The components of the pair that a term is. -/
def pair? : Term → Option (Term × Term)
  | pair a b => some (a, b)
  | _ => none

/-- The term is the empty list. -/
def isNil : Term → Bool
  | nil => true
  | _ => false

/-! ## Variables -/

/-- The variables of a term from left to right, as often as they occur. -/
def vars (t : Term) : List Var := (go [] t).reverse
where
  go (seen : List Var) : Term → List Var
    | nil | sym _ => seen
    | var x => x :: seen
    | pair a b => go (go seen a) b

theorem vars_go (seen : List Var) (t : Term) : vars.go seen t = t.vars.reverse ++ seen := by
  induction t generalizing seen with
  | nil | sym | var => simp [vars, vars.go]
  | pair a b iha ihb =>
    simp only [vars, vars.go] at *
    rw [iha, ihb, ihb (vars.go [] a), iha []]
    simp

@[simp] theorem vars_nil : nil.vars = [] := rfl
@[simp] theorem vars_sym (s : String) : (sym s).vars = [] := rfl
@[simp] theorem vars_var (x : Var) : (var x).vars = [x] := rfl

@[simp] theorem vars_pair (a b : Term) : (pair a b).vars = a.vars ++ b.vars := by
  rw [vars, vars.go, vars_go, vars_go]; simp

/-! ## Size -/

@[simp] theorem size_pair (a b : Term) : (pair a b).size = a.size + b.size + 1 := rfl

/-- A term mentions no more variables than it consists of terms. -/
theorem length_vars_le_size (t : Term) : t.vars.length ≤ t.size := by
  induction t with
  | nil | sym | var => simp [size]
  | pair a b iha ihb => simp only [vars_pair, size_pair, List.length_append]; omega

/-! ## Replacing variables -/

/-- The list of the items, of which the last is given first, ending in the image of a term under
`f`. -/
def mapVarsOnto (f : Var → Term) (items : List Term) : Term → Term
  | nil => ofReversed items nil
  | sym s => ofReversed items (sym s)
  | var x => ofReversed items (f x)
  | pair a b => mapVarsOnto f (mapVarsOnto f [] a :: items) b

/-- The term with `f x` in place of every variable `x`, all at once: what stands in for a variable
is not looked at again. -/
def mapVars (f : Var → Term) (t : Term) : Term := mapVarsOnto f [] t

theorem mapVarsOnto_eq (f : Var → Term) (items : List Term) (t : Term) :
    mapVarsOnto f items t = ofReversed items (t.mapVars f) := by
  induction t generalizing items with
  | nil | sym | var => rfl
  | pair a b _ ihb =>
    simp only [mapVars, mapVarsOnto] at *
    rw [ihb, ihb [_]]; rfl

@[simp] theorem mapVars_nil (f : Var → Term) : nil.mapVars f = nil := rfl
@[simp] theorem mapVars_sym (f : Var → Term) (s : String) : (sym s).mapVars f = sym s := rfl
@[simp] theorem mapVars_var (f : Var → Term) (x : Var) : (var x).mapVars f = f x := rfl

@[simp] theorem mapVars_pair (f : Var → Term) (a b : Term) :
    (pair a b).mapVars f = pair (a.mapVars f) (b.mapVars f) := by
  rw [mapVars, mapVarsOnto, mapVarsOnto_eq]; rfl

/-! ## Many terms -/

/-- The positions of the terms that differ from all terms before them. -/
def firstOccurrences (terms : List Term) : List Nat := go 0 [] terms
where
  go (i : Nat) (seen : List Term) : List Term → List Nat
    | [] => []
    | t :: rest => if t ∈ seen then go (i + 1) seen rest else i :: go (i + 1) (t :: seen) rest

end Term

end Relational
