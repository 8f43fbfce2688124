import Spellbook.Fault

/-! Positions in sequences: indices, slices and repetition. -/
namespace Spellbook.Sequence

def maxLength : Nat := Nat.pow 2 26

/-- The position an index names in a sequence of this length. Negative ones count from the end. -/
def position (length : Nat) (i : Int) : Except Fault Nat :=
  let p := if i < 0 then i + length else i
  if 0 ≤ p ∧ p < length then .ok p.toNat else .error (.outOfBounds i length)

/-- A slice bound as a position. Bounds outside the sequence are moved to its ends. -/
def bound (length : Nat) (b : Int) : Nat :=
  if b < 0 then (b + length).toNat else min b.toNat length

/-- The positions a slice starts at and stops before. With crossed bounds it stops where it starts. -/
def sliceRange (length : Nat) (start stop : Option Int) : Nat × Nat :=
  let i := (start.map (bound length)).getD 0
  let j := (stop.map (bound length)).getD length
  if j < i then (i, i) else (i, j)

def repetitions (length : Nat) (n : Int) : Except Fault Nat :=
  let count := if length = 0 then 0 else n.toNat
  if length * count ≤ maxLength then .ok count else .error .tooLong

def rangeCount (start stop step : Int) : Nat :=
  let span := stop - start
  if span = 0 ∨ (0 < span) ≠ (0 < step) then 0
  else (span.natAbs + step.natAbs - 1) / step.natAbs

def range (start stop step : Int) : Except Fault (List Int) :=
  if step = 0 then .error .zeroStep
  else
    let count := rangeCount start stop step
    if maxLength < count then .error (.rangeTooLarge count)
    else .ok ((List.range count).map fun (i : Nat) => start + i * step)

end Spellbook.Sequence
