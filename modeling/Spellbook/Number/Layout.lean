import Spellbook.Number.Double
import Spellbook.Number.Shortest

/-! How doubles are written: one form for script values, one for literals. -/
namespace Spellbook.Number

def digitsOf (n : Nat) : List Char := Nat.toDigits 10 n

/-- Positional notation, without a point when there is no fraction. -/
def Decimal.positional (d : Decimal) : List Char :=
  let ds := digitsOf d.digits
  if 0 ≤ d.exponent then
    if d.digits = 0 then ds else ds ++ List.replicate d.exponent.toNat '0'
  else
    let places := (-d.exponent).toNat
    let padded := List.replicate (places + 1 - ds.length) '0' ++ ds
    padded.take (padded.length - places) ++ '.' :: padded.drop (padded.length - places)

def Decimal.scientific (d : Decimal) : List Char :=
  let ds := digitsOf d.digits
  let power : Int := d.exponent + (ds.length - 1)
  let point := if ds.length ≤ 1 then [] else '.' :: ds.drop 1
  ds.take 1 ++ point ++ 'e' :: (toString power).toList

def withPoint (ds : List Char) : List Char :=
  if ds.contains '.' then ds else ds ++ ['.', '0']

private def minus (negative : Bool) : List Char := if negative then ['-'] else []

/-- The text of a script value. Integral values below `10 ^ 16` keep one zero after the point,
and no value has an exponent. -/
def display (x : Float) : String :=
  match Double.of x with
  | .nan => "NaN"
  | .infinite negative => String.ofList (minus negative ++ ['i', 'n', 'f'])
  | .finite negative m e =>
    let whole := Double.floorMagnitude m e
    let text :=
      if isIntegral x && whole < Nat.pow 10 16 then digitsOf whole ++ ['.', '0']
      else (shortest m e).positional
    String.ofList (minus negative ++ text)

/-- Whether the magnitude `m * 2 ^ e` is zero or lies in `[10 ^ -4, 10 ^ 16)`. -/
def isPlain (m : Nat) (e : Int) : Bool :=
  m == 0 ||
    (Nat.pow 2 (-e).toNat ≤ m * Nat.pow 2 e.toNat * Nat.pow 10 4 &&
      Double.floorMagnitude m e < Nat.pow 10 16)

/-- The text of a literal. It always has a point or an exponent, and an exponent exactly when the
magnitude is neither zero nor in `[10 ^ -4, 10 ^ 16)`. -/
def literalText (x : Float) : String :=
  match Double.of x with
  | .nan => "NaN"
  | .infinite negative => String.ofList (minus negative ++ ['i', 'n', 'f'])
  | .finite negative m e =>
    let d := shortest m e
    let text := if isPlain m e then withPoint d.positional else d.scientific
    String.ofList (minus negative ++ text)

end Spellbook.Number
