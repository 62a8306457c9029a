/-!
# Sets of characters given by ranges or runs of code points
-/

namespace TinyScript.Text

/-- Code point `n` lies in one of the closed ranges. -/
def inRanges (ranges : List (Nat × Nat)) (n : Nat) : Bool :=
  ranges.any fun r => r.1 ≤ n && n ≤ r.2

theorem inRanges_iff (ranges : List (Nat × Nat)) (n : Nat) :
    inRanges ranges n = true ↔ ∃ r ∈ ranges, r.1 ≤ n ∧ n ≤ r.2 := by
  simp [inRanges]

/-- Code point `n` lies in a run that counts. The runs follow each other from code point 0 on, and
every second one counts; `runs` are their lengths. -/
def inRuns (runs : List Nat) (n : Nat) : Bool :=
  match runs with
  | before :: inside :: runs =>
    before ≤ n && (n < before + inside || inRuns runs (n - (before + inside)))
  | _ => false

end TinyScript.Text
