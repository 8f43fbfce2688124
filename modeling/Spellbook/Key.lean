import Spellbook.Fault
import Spellbook.Number.Double
import Spellbook.Number.Word
import Spellbook.Text.Quoted
import Spellbook.Value

/-! The keys of maps. A double without a fraction has the key of the integer it equals, other
doubles are told apart to six places, and those too large for that by their bits. -/
namespace Spellbook

inductive Key where
  | bool (b : Bool)
  | int (n : Int64)
  | millionths (n : Int64)
  | bits (n : UInt64)
  | str (s : String)
deriving DecidableEq, Repr

namespace Key

/-- The key of a double. There is one NaN here, so all NaNs have one key; with the signs and payloads
that the hardware tells apart they would have several. -/
def ofFloat (x : Float) : Key :=
  let exact := if Number.isIntegral x then (Number.truncate? x).bind Number.checked else none
  match exact with
  | some n => .int n
  | none =>
    match Number.round? (x * 1000000) with
    | some n => if n.natAbs < Nat.pow 2 63 then .millionths (Int64.ofInt n) else .bits x.toBits
    | none => .bits x.toBits

def ofValue : Value → Except Fault Key
  | .int n => .ok (.int n)
  | .float x => .ok (ofFloat x)
  | .str s => .ok (.str s)
  | .bool b => .ok (.bool b)
  | v => .error (.unhashable v.typeName)

def rank : Key → Nat
  | .bool _ => 0
  | .int _ => 1
  | .millionths _ => 2
  | .bits _ => 3
  | .str _ => 4

def compare : Key → Key → Ordering
  | .bool a, .bool b => Ord.compare a b
  | .int a, .int b => Ord.compare a.toInt b.toInt
  | .millionths a, .millionths b => Ord.compare a.toInt b.toInt
  | .bits a, .bits b => Ord.compare a.toNat b.toNat
  | .str a, .str b => Ord.compare a b
  | a, b => Ord.compare a.rank b.rank

def text : Key → String
  | .bool b => "Boolean(" ++ toString b ++ ")"
  | .int n => "Integer(" ++ toString n.toInt ++ ")"
  | .millionths n => "Float(" ++ toString n.toInt ++ ")"
  | .bits n => "Bits(" ++ toString n.toNat ++ ")"
  | .str s => "Str(" ++ Text.quoted s ++ ")"

end Key

end Spellbook
