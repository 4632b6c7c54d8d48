/-! # Ranges of code points

    A class of characters is a table of closed ranges. A character belongs to the class when its
    code point lies in one of them. -/

namespace CommandLine.Text

/-- Whether a character lies in one of the closed ranges of a table. -/
def inRanges (table : List (Nat × Nat)) (c : Char) : Bool :=
  table.any fun (low, high) => low ≤ c.toNat && c.toNat ≤ high

/-- Membership in a table is membership in one of its ranges. -/
theorem inRanges_iff {table : List (Nat × Nat)} {c : Char} :
    inRanges table c = true ↔ ∃ r ∈ table, r.1 ≤ c.toNat ∧ c.toNat ≤ r.2 := by
  simp [inRanges]

end CommandLine.Text
