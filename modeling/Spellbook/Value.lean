import Spellbook.Arity
import Spellbook.Store.Ref
import Spellbook.Token

/-! Values. What has parts or an identity is a reference into the store. -/
namespace Spellbook

inductive Builtin where
  | print | len | type | str | int | float | bool | range | abs | max | min | enumerate | pairs
  | list | tuple | ord | chr | error
deriving DecidableEq, Repr

namespace Builtin

def all : List Builtin :=
  [.print, .len, .type, .str, .int, .float, .bool, .range, .abs, .max, .min, .enumerate, .pairs,
   .list, .tuple, .ord, .chr, .error]

def name : Builtin → String
  | .print => "print" | .len => "len" | .type => "type" | .str => "str" | .int => "int"
  | .float => "float" | .bool => "bool" | .range => "range" | .abs => "abs" | .max => "max"
  | .min => "min" | .enumerate => "enumerate" | .pairs => "pairs" | .list => "list"
  | .tuple => "tuple" | .ord => "ord" | .chr => "chr" | .error => "Error"

def arity : Builtin → Arity
  | .print | .max | .min => .any
  | .range => .between 1 3
  | .error => .between 1 2
  | _ => .exactly 1

end Builtin

inductive Value where
  | none
  | bool (b : Bool)
  | int (n : Int64)
  /-- A double. All NaNs are the same one here, without a sign or a payload. -/
  | float (x : Float)
  | str (s : String)
  | array (r : Ref .array)
  | tuple (r : Ref .tuple)
  | map (r : Ref .map)
  | spell (r : Ref .spell)
  | builtin (b : Builtin)
  | grimoire (r : Ref .grimoire)
  | object (r : Ref .object)
  /-- A method together with the object it was reached through. -/
  | method (r : Ref .method)
  | space (r : Ref .space)
  /-- An error that has not been raised. -/
  | error (r : Ref .failure)
  /-- An error that was raised and caught. -/
  | caught (r : Ref .failure)
deriving DecidableEq, Repr

namespace Value

def typeName : Value → String
  | .none => "NONE" | .bool _ => "BOOLEAN" | .int _ => "INTEGER" | .float _ => "FLOAT"
  | .str _ => "STRING" | .array _ => "ARRAY" | .tuple _ => "TUPLE" | .map _ => "MAP"
  | .spell _ => "FUNCTION" | .builtin _ => "BUILTIN" | .grimoire _ => "GRIMOIRE"
  | .object _ => "INSTANCE" | .method _ => "BOUND_METHOD" | .space _ => "NAMESPACE"
  | .error _ => "ERROR" | .caught _ => "CAUGHT_ERROR"

def sameType (a b : Value) : Bool := a.typeName == b.typeName

def ofLiteral : Literal → Value
  | .none => .none
  | .int n => .int n
  | .float x => .float x
  | .str s => .str s
  | .bool b => .bool b

def ofNat (n : Nat) : Value := .int (Int64.ofNat n)

def isCallable : Value → Bool
  | .spell _ | .builtin _ | .grimoire _ | .method _ => true
  | _ => false

end Value

end Spellbook
