/-!
# Blanks

The characters that separate words: those with the Unicode property `White_Space`, which has 25
code points. The table lists them as ranges.
-/

namespace Relational.Text

/-- The code points with the property `White_Space`, as closed ranges in increasing order. -/
def blankRanges : List (Nat × Nat) :=
  [(0x9, 0xD), (0x20, 0x20), (0x85, 0x85), (0xA0, 0xA0), (0x1680, 0x1680), (0x2000, 0x200A),
    (0x2028, 0x2029), (0x202F, 0x202F), (0x205F, 0x205F), (0x3000, 0x3000)]

/-- A character that separates words. -/
def isBlank (c : Char) : Bool :=
  blankRanges.any fun (lo, hi) => lo ≤ c.toNat && c.toNat ≤ hi

/-- The table holds 25 code points. -/
theorem blankRanges_count : blankRanges.foldl (fun n (lo, hi) => n + (hi - lo + 1)) 0 = 25 := rfl

/-- The table is in increasing order, with a gap between any two of its ranges. -/
theorem blankRanges_sorted : blankRanges.Pairwise fun a b => a.2 + 1 < b.1 := by decide

/-- The white space of ASCII is blank. -/
theorem isBlank_of_isWhitespace {c : Char} (h : c.isWhitespace = true) : isBlank c = true := by
  simp only [Char.isWhitespace, Bool.or_eq_true, decide_eq_true_eq] at h
  rcases h with ((h | h) | h) | h <;> subst h <;> decide

/-- The characters that give terms their shape are not blank. -/
theorem not_isBlank_of_mem {c : Char} (h : c ∈ ['(', ')', ',', '.']) : isBlank c = false := by
  simp only [List.mem_cons, List.not_mem_nil, or_false] at h
  rcases h with rfl | rfl | rfl | rfl <;> decide

end Relational.Text
