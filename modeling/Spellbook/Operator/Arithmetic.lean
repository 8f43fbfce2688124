import Spellbook.Fault
import Spellbook.Number.Double
import Spellbook.Number.Word
import Spellbook.Program.Expr
import Spellbook.Value

/-! Operators on numbers and on strings. Integer results that do not fit in 64 bits are refused. -/
namespace Spellbook.Operator

/-- The integer `n`, unless it does not fit. -/
def exact (n : Int) : Except Fault Value :=
  match Number.checked n with
  | some w => .ok (.int w)
  | none => .error .overflow

def maxExponent : Nat := Nat.pow 2 32 - 1

/-- The power of an integer. Only 0, 1 and -1 have powers above the 63rd that fit. -/
def intPower (base : Int) (exponent : Nat) : Except Fault Value :=
  if maxExponent < exponent then .error .overflow
  else if base.natAbs ≤ 1 then
    exact (if exponent = 0 then 1 else if exponent % 2 = 0 then base * base else base)
  else if 64 ≤ exponent then .error .overflow
  else exact (base.pow exponent)

/-- Shifts to the left lose the high bits, shifts to the right keep the sign. -/
def shift (left : Bool) (n amount : Int64) : Except Fault Value :=
  if 0 ≤ amount.toInt ∧ amount.toInt < 64 then
    .ok (.int (if left then n <<< amount else n >>> amount))
  else .error .badShift

/-- An operator between two integers. Division goes toward zero, and a remainder has the sign of
the dividend. A power with a negative exponent is a double. -/
def onInts (op : Operator) (l r : Int64) : Except Fault Value :=
  match op with
  | .add => exact (l.toInt + r.toInt)
  | .sub => exact (l.toInt - r.toInt)
  | .mul => exact (l.toInt * r.toInt)
  | .div => if r = 0 then .error .divisionByZero else exact (l.toInt.tdiv r.toInt)
  | .mod =>
    if r = 0 then .error .moduloByZero
    -- The quotient has to fit as well.
    else if r = -1 ∧ l = Int64.minValue then .error .overflow
    else exact (l.toInt.tmod r.toInt)
  | .pow =>
    if 0 ≤ r.toInt then intPower l.toInt r.toInt.toNat
    else .ok (.float (Float.pow (Float.ofInt l.toInt) (Float.ofInt r.toInt)))
  | .less => .ok (.bool (l.toInt < r.toInt))
  | .greater => .ok (.bool (r.toInt < l.toInt))
  | .lessEqual => .ok (.bool (l.toInt ≤ r.toInt))
  | .greaterEqual => .ok (.bool (r.toInt ≤ l.toInt))
  | .bitAnd => .ok (.int (l &&& r))
  | .bitOr => .ok (.int (l ||| r))
  | .bitXor => .ok (.int (l ^^^ r))
  | .shiftLeft => shift true l r
  | .shiftRight => shift false l r
  | .equal => .ok (.bool (l == r))
  | .notEqual => .ok (.bool (l != r))
  | .isIn | .notIn => .error (.noOperator "INTEGER" op.text "INTEGER")

def onFloats? (op : Operator) (l r : Float) : Option (Except Fault Value) :=
  match op with
  | .add => some (.ok (.float (l + r)))
  | .sub => some (.ok (.float (l - r)))
  | .mul => some (.ok (.float (l * r)))
  | .div => some (if r == 0 then .error .divisionByZero else .ok (.float (l / r)))
  | .mod => some (if r == 0 then .error .moduloByZero else .ok (.float (Number.remainder l r)))
  | .pow => some (.ok (.float (Float.pow l r)))
  | .less => some (.ok (.bool (l < r)))
  | .greater => some (.ok (.bool (r < l)))
  | .lessEqual => some (.ok (.bool (l ≤ r)))
  | .greaterEqual => some (.ok (.bool (r ≤ l)))
  | _ => none

/-- An operator between two strings, if they have it. Strings are ordered by code points. -/
def onStrings? (op : Operator) (l r : String) : Option Value :=
  match op with
  | .add => some (.str (l ++ r))
  | .less => some (.bool (l < r))
  | .greater => some (.bool (r < l))
  | .lessEqual => some (.bool (!decide (r < l)))
  | .greaterEqual => some (.bool (!decide (l < r)))
  | _ => none

def onBools? (op : Operator) (l r : Bool) : Option Value :=
  match op with
  | .bitAnd => some (.bool (l && r))
  | .bitOr => some (.bool (l || r))
  | .bitXor => some (.bool (l != r))
  | _ => none

end Spellbook.Operator
