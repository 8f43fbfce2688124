/-! Character classes given by ascending, disjoint ranges of code points. -/
namespace Spellbook.Text

/-- Whether `n` lies in one of the ranges. They ascend, so the search ends at the first range
that starts above `n`. -/
def inRanges (n : Nat) : List (Nat × Nat) → Bool
  | [] => false
  | (lo, hi) :: rest => if n < lo then false else n ≤ hi || inRanges n rest

end Spellbook.Text
