/-! The fewest decimal digits that read back as a given double. -/
namespace Spellbook.Number

structure Decimal where
  digits : Nat
  exponent : Int
deriving DecidableEq, Repr

/-- How many decimal digits `n` has, none for zero. -/
def digitCount (n : Nat) : Nat := if n = 0 then 0 else (Nat.toDigits 10 n).length

/-- A magnitude `value / denominator` with the interval of reals that are rounded to it. -/
structure RoundingInterval where
  value : Nat
  low : Nat
  high : Nat
  denominator : Nat
  /-- Whether the two ends themselves are rounded to the value. -/
  closed : Bool

/-- The interval around `m * 2 ^ e`. Below a power of two the doubles lie twice as close. -/
def RoundingInterval.of (m : Nat) (e : Int) : RoundingInterval :=
  let scale := Nat.pow 2 (e - 2).toNat
  let gap := if m = Nat.pow 2 52 && e > -1074 then 1 else 2
  { value := 4 * m * scale
    low := (4 * m - gap) * scale
    high := (4 * m + 2) * scale
    denominator := Nat.pow 2 (2 - e).toNat
    closed := m % 2 == 0 }

/-- The least `t` with `value / denominator < 10 ^ t`. -/
def RoundingInterval.magnitude (r : RoundingInterval) : Int :=
  if r.denominator ≤ r.value then digitCount (r.value / r.denominator)
  else 1 - digitCount ((r.denominator - 1) / r.value)

/-- The multiple of `10 ^ k` nearest to the value, if it lies in the interval. Of two that are
equally near the greater is taken. -/
def RoundingInterval.onGrid (r : RoundingInterval) (k : Int) : Option Decimal :=
  let up := Nat.pow 10 (-k).toNat
  let unit := r.denominator * Nat.pow 10 k.toNat
  let below := r.value * up / unit
  let inside (n : Nat) :=
    if r.closed then r.low * up ≤ n * unit && n * unit ≤ r.high * up
    else r.low * up < n * unit && n * unit < r.high * up
  let nearerAbove := (below + 1) * unit - r.value * up ≤ r.value * up - below * unit
  if inside (below + 1) && (nearerAbove || !inside below) then some ⟨below + 1, k⟩
  else if inside below then some ⟨below, k⟩
  else none

/-- Moves the zeros that end the digits into the exponent. -/
def Decimal.normalize : Nat → Decimal → Decimal
  | 0, d => d
  | fuel + 1, d =>
    if d.digits ≠ 0 && d.digits % 10 == 0 then normalize fuel ⟨d.digits / 10, d.exponent + 1⟩
    else d

/-- The shortest decimal that reads back as `m * 2 ^ e`, and the nearest of those. Seventeen
digits always suffice. -/
def shortest (m : Nat) (e : Int) : Decimal :=
  if m = 0 then ⟨0, 0⟩
  else
    let r := RoundingInterval.of m e
    let top := r.magnitude
    let found := (List.range 17).findSome? fun (i : Nat) => r.onGrid (top - 1 - i)
    (found.getD ⟨0, 0⟩).normalize 17

end Spellbook.Number
