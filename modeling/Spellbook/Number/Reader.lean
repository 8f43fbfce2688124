import Spellbook.Number.Double
import Spellbook.Number.Word

/-! Numbers written in decimal. -/
namespace Spellbook.Number

def isDigit (c : Char) : Bool := '0' ≤ c && c ≤ '9'

def digitsValue (ds : List Char) : Nat := ds.foldl (fun n c => 10 * n + (c.toNat - '0'.toNat)) 0

/-- A natural number: one or more digits and nothing else. -/
def readNat? (ds : List Char) : Option Nat :=
  if ds.isEmpty || !ds.all isDigit then none else some (digitsValue ds)

def splitSign : List Char → Bool × List Char
  | '-' :: rest => (true, rest)
  | '+' :: rest => (false, rest)
  | cs => (false, cs)

def readInt? (cs : List Char) : Option Int64 := do
  let (negative, ds) := splitSign cs
  checked (signed negative (← readNat? ds))

def readCount? (cs : List Char) : Option Nat := do
  let n ← readNat? (match cs with
    | '+' :: rest => rest
    | cs => cs)
  if n < Nat.pow 2 64 then some n else none

/-- The double nearest to `digits * 10 ^ exponent`. Beyond 400 decimal places on either side of
the point every number is rounded to infinity or zero. -/
def nearest (digits : Nat) (exponent : Int) : Float :=
  let size := exponent + (Nat.toDigits 10 digits).length
  if digits = 0 || size < -400 then 0
  else if 400 < size then 1 / 0
  else Float.ofScientific digits (exponent < 0) exponent.natAbs

def readExponent? (cs : List Char) : Option Int := do
  let (negative, ds) := splitSign cs
  return signed negative (← readNat? ds)

/-- A magnitude: digits with an optional point among, before or after them, and an optional
exponent after an `e` of either case. -/
def readMagnitude? (cs : List Char) : Option Float := do
  let whole := cs.takeWhile isDigit
  let rest := cs.dropWhile isDigit
  let (fraction, rest) :=
    match rest with
    | '.' :: more => (more.takeWhile isDigit, more.dropWhile isDigit)
    | rest => ([], rest)
  guard !(whole ++ fraction).isEmpty
  let exponent ← match rest with
    | [] => some 0
    | c :: more => if c = 'e' || c = 'E' then readExponent? more else none
  return nearest (digitsValue (whole ++ fraction)) (exponent - fraction.length)

/-- The names of the values that have no digits, in any case. -/
def readNamed? (cs : List Char) : Option Float :=
  match String.ofList (cs.map Char.toLower) with
  | "inf" | "infinity" => some (1 / 0)
  | "nan" => some notANumber
  | _ => none

def readFloat? (cs : List Char) : Option Float := do
  let (negative, magnitude) := splitSign cs
  let x ← readNamed? magnitude <|> readMagnitude? magnitude
  return if negative then -x else x

end Spellbook.Number
