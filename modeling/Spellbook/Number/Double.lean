/-! Doubles taken apart into sign, mantissa and binary exponent, and the operations that are
exact on that form: truncation, rounding to an integer and the remainder. -/
namespace Spellbook.Number

/-- What a double stands for. The magnitude of a finite one is `mantissa * 2 ^ exponent`. -/
inductive Double where
  | nan
  | infinite (negative : Bool)
  | finite (negative : Bool) (mantissa : Nat) (exponent : Int)
deriving DecidableEq, Repr

def Double.ofBits (bits : Nat) : Double :=
  let negative := bits / Nat.pow 2 63 % 2 == 1
  let exponent : Nat := bits / Nat.pow 2 52 % 2048
  let fraction := bits % Nat.pow 2 52
  if exponent = 2047 then if fraction = 0 then .infinite negative else .nan
  else if exponent = 0 then .finite negative fraction (-1074)
  else .finite negative (Nat.pow 2 52 + fraction) ((exponent : Int) - 1075)

def Double.of (x : Float) : Double := .ofBits x.toBits.toNat

/-- The double of magnitude `m * 2 ^ e`, which has to be representable. -/
def Double.pack (negative : Bool) (m : Nat) (e : Int) : Float :=
  let sign := if negative then Nat.pow 2 63 else 0
  let top : Int := e + m.log2
  let bits :=
    if m = 0 then 0
    else if top < -1022 then m * Nat.pow 2 (e + 1074).toNat / Nat.pow 2 (-1074 - e).toNat
    else (top + 1022).toNat * Nat.pow 2 52 + m * Nat.pow 2 52 / Nat.pow 2 m.log2
  Float.ofBits (UInt64.ofNat (sign + bits))

def Double.floorMagnitude (m : Nat) (e : Int) : Nat :=
  m * Nat.pow 2 e.toNat / Nat.pow 2 (-e).toNat

/-- The integer nearest to a finite magnitude, halves going up. -/
def Double.roundMagnitude (m : Nat) (e : Int) : Nat :=
  (2 * m * Nat.pow 2 e.toNat + Nat.pow 2 (-e).toNat) / (2 * Nat.pow 2 (-e).toNat)

def signed (negative : Bool) (n : Nat) : Int := if negative then -n else n

def truncate? (x : Float) : Option Int :=
  match Double.of x with
  | .finite negative m e => some (signed negative (Double.floorMagnitude m e))
  | _ => none

/-- The integer nearest to a finite double, halves going away from zero. -/
def round? (x : Float) : Option Int :=
  match Double.of x with
  | .finite negative m e => some (signed negative (Double.roundMagnitude m e))
  | _ => none

def isIntegral (x : Float) : Bool :=
  match Double.of x with
  | .finite _ m e => m * Nat.pow 2 e.toNat % Nat.pow 2 (-e).toNat == 0
  | _ => false

def isFinite (x : Float) : Bool :=
  match Double.of x with
  | .finite .. => true
  | _ => false

def notANumber : Float := Float.ofBits 0x7ff8000000000000

/-- What is left of `x` after taking away a whole multiple of `y`: smaller than `y` in magnitude,
and of the sign of `x`. -/
def remainder (x y : Float) : Float :=
  match Double.of x, Double.of y with
  | .finite negative m e, .finite _ n f =>
    if n = 0 then notANumber
    else
      let low := min e f
      Double.pack negative (m * Nat.pow 2 (e - low).toNat % (n * Nat.pow 2 (f - low).toNat)) low
  | .finite .., .infinite _ => x
  | _, _ => notANumber

end Spellbook.Number
