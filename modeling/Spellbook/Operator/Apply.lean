import Spellbook.Operator.Arithmetic
import Spellbook.Operator.Sequence
import Spellbook.Store.Equality
import Spellbook.Text.Lines

/-! Operators, indexing and slicing on values. What has no rule is refused: nothing is converted but
integers to doubles. A refused operation leaves the store as it is. -/
namespace Spellbook

abbrev Op := EStateM Fault Store

namespace Op

def look {α : Type} (f : Store → α) : Op α := fun s => .ok (f s) s

def ofExcept {α : Type} : Except Fault α → Op α
  | .ok a => pure a
  | .error e => throw e

def newArray (xs : Array Value) : Op Value := fun s =>
  let (v, s) := s.newArray xs
  .ok v s

def newTuple (xs : Array Value) : Op Value := fun s =>
  let (v, s) := s.newTuple xs
  .ok v s

def newMap (t : Table) : Op Value := fun s =>
  let (v, s) := s.newMap t
  .ok v s

end Op

namespace Operator

def refusal (op : Operator) (l r : Value) : Fault :=
  if l.sameType r then .noOperator l.typeName op.text r.typeName
  else .mismatch l.typeName op.text r.typeName

/-- The outcome of an operator, refused if the operands do not have it. -/
def orRefuse (op : Operator) (l r : Value) : Option Value → Op Value
  | some v => pure v
  | none => throw (op.refusal l r)

def applyFloats (op : Operator) (l r : Value) (x y : Float) : Op Value :=
  match op.onFloats? x y with
  | some outcome => .ofExcept outcome
  | none => throw (op.refusal l r)

/-- Whether `==` and `!=` are allowed between two values. -/
def comparable : Value → Value → Bool
  | .none, _ => true
  | _, .none => true
  | .int _, .float _ => true
  | .float _, .int _ => true
  | l, r => l.sameType r

def applyEquality (op : Operator) (l r : Value) : Op Value := do
  if comparable l r then
    let same ← Op.look fun s => s.equal l r
    return .bool (if op = .equal then same else !same)
  else throw (op.refusal l r)

/-- Whether a value is in a container, a part of a string or a key of a map. -/
def contains (op : Operator) (needle haystack : Value) : Op Bool := do
  match needle, haystack with
  | _, .array r => Op.look fun s => (s.array r).any fun v => s.equal v needle
  | _, .tuple r => Op.look fun s => (s.tuple r).any fun v => s.equal v needle
  | .str part, .str whole => return Text.contains whole part
  | _, .map r =>
    let key ← .ofExcept (Key.ofValue needle)
    Op.look fun s => ((s.map r).find? key).isSome
  | _, _ => throw (op.refusal needle haystack)

def repeatArray (xs : Array Value) (n : Int64) : Op Value := do
  let count ← .ofExcept (Sequence.repetitions xs.size n.toInt)
  Op.newArray (Nat.repeat (· ++ xs) count #[])

/-- `n` copies of a string, whose length is counted in bytes here. -/
def repeatString (s : String) (n : Int64) : Op Value := do
  let count ← .ofExcept (Sequence.repetitions s.utf8ByteSize n.toInt)
  return .str (Text.copies count s)

/-- The operators that are not about equality or membership. -/
def applyArithmetic (op : Operator) (l r : Value) : Op Value := do
  match l, r with
  | .int x, .int y => .ofExcept (op.onInts x y)
  | .int x, .float y => op.applyFloats l r (Store.toFloat x) y
  | .float x, .int y => op.applyFloats l r x (Store.toFloat y)
  | .float x, .float y => op.applyFloats l r x y
  | .str x, .str y => op.orRefuse l r (op.onStrings? x y)
  | .str x, .int n => if op = .mul then repeatString x n else throw (op.refusal l r)
  | .array x, .array y =>
    if op = .add then
      Op.newArray (← Op.look fun s => s.array x ++ s.array y)
    else throw (op.refusal l r)
  | .array x, .int n =>
    if op = .mul then repeatArray (← Op.look fun s => s.array x) n else throw (op.refusal l r)
  | .tuple x, .tuple y =>
    if op = .add then
      Op.newTuple (← Op.look fun s => s.tuple x ++ s.tuple y)
    else throw (op.refusal l r)
  | .bool x, .bool y => op.orRefuse l r (op.onBools? x y)
  | _, _ => throw (op.refusal l r)

def apply (op : Operator) (l r : Value) : Op Value := do
  match op with
  | .equal | .notEqual => op.applyEquality l r
  | .isIn => return .bool (← op.contains l r)
  | .notIn => return .bool (!(← op.contains l r))
  | _ => op.applyArithmetic l r

end Operator

def UnaryOp.apply (op : UnaryOp) (v : Value) : Op Value := do
  match op, v with
  | .bang, _ | .not, _ => return .bool (!(← Op.look fun s => s.truthy v))
  | .negate, .int n => .ofExcept (Operator.exact (-n.toInt))
  | .negate, .float x => return .float (-x)
  | .plus, .int _ | .plus, .float _ => return v
  | .complement, .int n => return .int (~~~n)
  | _, _ => throw (.noUnary op.text v.typeName)

/-- Whether a value is the case of a match: of the same type, and equal. -/
def Store.matchesCase (s : Store) (subject candidate : Value) : Bool :=
  subject.sameType candidate && s.equal subject candidate

namespace Op

def charAt (text : String) (i : Int64) : Op Value := do
  let cs := text.toList.toArray
  let p ← ofExcept (Sequence.position cs.size i.toInt)
  return .str (String.singleton (cs.getD p ' '))

/-- Reads an element, a character or an entry. A map has `None` under a key it does not hold. -/
def index (object i : Value) : Op Value := do
  match object, i with
  | .array r, .int i =>
    let xs ← look fun s => s.array r
    return xs.getD (← ofExcept (Sequence.position xs.size i.toInt)) .none
  | .tuple r, .int i =>
    let xs ← look fun s => s.tuple r
    return xs.getD (← ofExcept (Sequence.position xs.size i.toInt)) .none
  | .str text, .int i => charAt text i
  | .map r, k =>
    let key ← ofExcept (Key.ofValue k)
    look fun s => (((s.map r).find? key).map (·.value)).getD .none
  | .array _, _ | .tuple _, _ | .str _, _ => throw (.badIndex object.typeName i.typeName)
  | _, _ => throw (.notIndexable object.typeName)

def setIndex (object i v : Value) : Op Unit := do
  match object, i with
  | .array r, .int i =>
    let p ← ofExcept (Sequence.position (← look fun s => (s.array r).size) i.toInt)
    modify fun s => s.setElement r p v
  | .array _, _ => throw (.badIndex object.typeName i.typeName)
  | .map r, k =>
    let key ← ofExcept (Key.ofValue k)
    modify fun s => s.setEntry r ⟨key, k, v⟩
  | _, _ => throw (.notIndexAssignable object.typeName)

def sliceBound : Option Value → Op (Option Int)
  | none | some .none => pure none
  | some (.int n) => pure (some n.toInt)
  | some v => throw (.badBound v.typeName)

def slice (object : Value) (start stop : Option Value) : Op Value := do
  let start ← sliceBound start
  let stop ← sliceBound stop
  match object with
  | .array r =>
    let xs ← look fun s => s.array r
    let (i, j) := Sequence.sliceRange xs.size start stop
    newArray (xs.extract i j)
  | .tuple r =>
    let xs ← look fun s => s.tuple r
    let (i, j) := Sequence.sliceRange xs.size start stop
    newTuple (xs.extract i j)
  | .str text =>
    let cs := text.toList
    let (i, j) := Sequence.sliceRange cs.length start stop
    return .str (String.ofList ((cs.drop i).take (j - i)))
  | _ => throw (.notSliceable object.typeName)

end Op

end Spellbook
