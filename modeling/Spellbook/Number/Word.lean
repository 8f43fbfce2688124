/-! 64-bit integers. Results that do not fit are refused, never wrapped. -/
namespace Spellbook.Number

def wordLimit : Int := 9223372036854775808

def fits (n : Int) : Bool := -wordLimit ≤ n && n < wordLimit

def checked (n : Int) : Option Int64 := if fits n then some (Int64.ofInt n) else none

def saturated (n : Int) : Int64 :=
  Int64.ofInt (if n < -wordLimit then -wordLimit else if n < wordLimit then n else wordLimit - 1)

theorem toInt_of_checked {n : Int} {w : Int64} (h : checked n = some w) : w.toInt = n := by
  unfold checked at h
  split at h
  · rename_i hf
    simp only [fits, Bool.and_eq_true, decide_eq_true_eq] at hf
    cases h
    exact Int64.toInt_ofInt_of_le (by simpa [wordLimit] using hf.1)
      (by simpa [wordLimit] using hf.2)
  · cases h

end Spellbook.Number
