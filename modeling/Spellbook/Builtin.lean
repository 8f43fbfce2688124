import Spellbook.Number.Reader
import Spellbook.Operator.Apply
import Spellbook.Store.Lineage
import Spellbook.Store.Printer
import Spellbook.Text.Blank

/-! The spells every program starts with, `print` apart, which writes output. -/
namespace Spellbook.Builtin

def elements (b : Builtin) (v : Value) : Op (Array Value) := do
  match ← Op.look fun s => s.elements? v with
  | some xs => return xs
  | none => throw (.needs b.name "expects a sequence" v.typeName)

def repr (v : Value) : Op String :=
  match v with
  | .str s => pure (Text.quoted s)
  | v => Op.look fun s => s.print v

def lengthOf (v : Value) : Op Value := do
  match v with
  | .str s => return .ofNat s.length
  | .array r => return .ofNat (← Op.look fun s => (s.array r).size)
  | .tuple r => return .ofNat (← Op.look fun s => (s.tuple r).size)
  | .map r => return .ofNat (← Op.look fun s => (s.map r).length)
  | v => throw (.noLength v.typeName)

/-- The integer a text writes. A text that writes a double stands for that without its fraction,
moved to the nearest integer there is. -/
def intOfText? (cs : List Char) : Option Int64 :=
  match Number.readInt? cs with
  | some n => some n
  | none => do
    let x ← Number.readFloat? cs
    let n ← Number.truncate? x
    return Number.saturated n

def toInt? : Value → Option Int64
  | .int n => some n
  | .float x => (Number.truncate? x).bind fun _ =>
      if x.abs < 9223372036854775808 then (Number.truncate? x).bind Number.checked else none
  | .bool b => some (if b then 1 else 0)
  | .str s => intOfText? (Text.trim s.toList)
  | _ => none

def toFloat? : Value → Option Float
  | .int n => some (Store.toFloat n)
  | .float x => some x
  | .bool b => some (if b then 1 else 0)
  | .str s => Number.readFloat? (Text.trim s.toList)
  | _ => none

def bounds (args : List Value) : Except Fault (List Int) :=
  args.mapM fun
    | .int n => .ok n.toInt
    | v => .error (.needs Builtin.range.name "expects INTEGER" v.typeName)

def rangeOf (args : List Value) : Op Value := do
  let xs ← match ← .ofExcept (bounds args) with
    | [stop] => .ofExcept (Sequence.range 0 stop 1)
    | [start, stop] => .ofExcept (Sequence.range start stop 1)
    | [start, stop, step] => .ofExcept (Sequence.range start stop step)
    | _ => throw (.argumentCount Builtin.range.arity.text args.length)
  Op.newArray ((xs.map fun n => .int (Int64.ofInt n)).toArray)

def absolute (v : Value) : Op Value :=
  match v with
  | .int n => .ofExcept (Operator.exact n.toInt.natAbs)
  | .float x => pure (.float x.abs)
  | v => throw (.needs Builtin.abs.name "expects a number" v.typeName)

/-- The first of the candidates that no later one beats. -/
def best (order : Operator) (leader : Value) : List Value → Op Value
  | [] => pure leader
  | v :: rest => do
    let won ← order.apply v leader
    if ← Op.look fun s => s.truthy won then best order v rest else best order leader rest

def extreme (b : Builtin) (order : Operator) (args : List Value) : Op Value := do
  let candidates ← match args with
    | [.array r] => Op.look fun s => (s.array r).toList
    | [.tuple r] => Op.look fun s => (s.tuple r).toList
    | args => pure args
  match candidates with
  | [] => throw (.emptySequence b.name)
  | first :: rest => best order first rest

def pairUp : List (Value × Value) → Op (List Value)
  | [] => pure []
  | (a, b) :: rest => do
    let t ← Op.newTuple #[a, b]
    return t :: (← pairUp rest)

def enumerated (v : Value) : Op Value := do
  let xs ← elements .enumerate v
  let numbered := xs.toList.zipIdx.map fun (x, i) => (Value.ofNat i, x)
  Op.newArray (← pairUp numbered).toArray

def pairsOf (v : Value) : Op Value := do
  match v with
  | .map r =>
    let entries ← Op.look fun s => (s.map r).map fun e => (e.name, e.value)
    Op.newArray (← pairUp entries).toArray
  | v => throw (.needs Builtin.pairs.name "expects MAP" v.typeName)

def codePointOf (v : Value) : Op Value := do
  match v with
  | .str s =>
    match s.toList with
    | [c] => return .ofNat c.toNat
    | _ => throw (.notChar (← repr v))
  | v => throw (.notChar (← repr v))

def charOf (v : Value) : Op Value :=
  match v with
  | .int n =>
    if 0 ≤ n.toInt ∧ n.toInt.toNat.isValidChar then
      pure (.str (String.singleton (Char.ofNat n.toInt.toNat)))
    else throw (.notCodePoint n.toInt)
  | v => throw (.needs Builtin.chr.name "expects INTEGER" v.typeName)

/-- An error that has not been raised yet, and so has no place. -/
def errorOf (name : Value) (message : Option Value) : Op Value := do
  match name with
  | .str name =>
    let message ← match message with
      | some v => Op.look fun s => s.print v
      | none => pure ""
    fun s =>
      let (r, s) := s.newFailure (.custom ⟨name, message, none, .unknown, []⟩)
      .ok (.error r) s
  | v => throw (.needs Builtin.error.name "name must be STRING" v.typeName)

def converted {α : Type} (v : Value) (target : String) (make : α → Value) : Option α → Op Value
  | some a => pure (make a)
  | none => do throw (.notConvertible (← repr v) target)

/-- Applies a builtin to arguments it accepts. `print` has been seen to elsewhere. -/
def apply (b : Builtin) (args : List Value) : Op Value := do
  match b, args with
  | .print, _ => return .none
  | .len, [v] => lengthOf v
  | .type, [v] => return .str (← Op.look fun s => s.kind v)
  | .str, [v] => return .str (← Op.look fun s => s.print v)
  | .int, [v] => converted v "Integer" .int (toInt? v)
  | .float, [v] => converted v "Float" .float (toFloat? v)
  | .bool, [v] => return .bool (← Op.look fun s => s.truthy v)
  | .range, args => rangeOf args
  | .abs, [v] => absolute v
  | .max, args => extreme .max .greater args
  | .min, args => extreme .min .less args
  | .enumerate, [v] => enumerated v
  | .pairs, [v] => pairsOf v
  | .list, [v] => Op.newArray (← elements .list v)
  | .tuple, [v] => Op.newTuple (← elements .tuple v)
  | .ord, [v] => codePointOf v
  | .chr, [v] => charOf v
  | .error, [name] => errorOf name none
  | .error, [name, message] => errorOf name (some message)
  | b, args => throw (.argumentCount b.arity.text args.length)

end Spellbook.Builtin
