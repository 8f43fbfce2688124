import Spellbook.Eval.Attribute
import Spellbook.Eval.Basic

/-! Assignments. What is written to is evaluated after the value, and written last. -/
namespace Spellbook

namespace Eval

variable (w : World)

/-- The values that several names are bound to at once: elements, or the keys and the values of a
map. -/
def unpack (pos : Pos) (count : Nat) (v : Value) : Eval (List Value) := do
  match v with
  | .array r => view fun s => (s.array r).toList
  | .tuple r => view fun s => (s.tuple r).toList
  | .map r =>
    if count = 2 then
      let entries ← view fun s => s.map r
      let keys ← create fun s => s.newArray ((entries.map (·.name)).toArray)
      let values ← create fun s => s.newArray ((entries.map (·.value)).toArray)
      return [keys, values]
    else fail w pos (.notUnpackable v.typeName)
  | _ => fail w pos (.notUnpackable v.typeName)

def assignAll : List (Ident × Value) → Eval Unit
  | [] => pure ()
  | (id, v) :: rest => do
    assign id.name v
    assignAll rest

def assignParts (pos : Pos) (names : List Ident) (v : Value) : Eval Unit := do
  let values ← unpack w pos names.length v
  if values.length = names.length then assignAll (names.zip values)
  else fail w pos (.unpackCount values.length names.length)

def assignPattern (p : Pattern) (v : Value) : Eval Unit :=
  match p with
  | .one id => assign id.name v
  | .tuple pos names => assignParts w pos names v

/-- Counts a variable up or down, and gives its value before and after that. -/
def count (pos : Pos) (step : Step) (id : Ident) : Eval (Value × Value) := do
  let old ← lookup w id
  let new ← operateAt w pos (step.operator.apply old (.int 1))
  assign id.name new
  return (old, new)

end Eval

namespace Evaluator

open Eval

variable (w : World) (inner : Evaluator)

def assign (target : Target) (v : Value) : Eval Unit := do
  match target with
  | .place (.name id) => Eval.assign id.name v
  | .place (.attr object id) =>
    let object ← inner.expr object
    setAttr w object id v
  | .place (.index pos object i) =>
    let object ← inner.expr object
    let i ← inner.expr i
    operateAt w pos (Op.setIndex object i v)
  | .tuple pos names => assignParts w pos names v

/-- Writes what an operator makes of the value at a place and another. -/
def update (place : Place) (op : Update) (pos : Pos) (v : Value) : Eval Unit := do
  match place with
  | .name id =>
    let old ← lookup w id
    let new ← operateAt w pos (op.operator.apply old v)
    Eval.assign id.name new
  | .attr object id =>
    let object ← inner.expr object
    let old ← attr w object id
    let new ← operateAt w pos (op.operator.apply old v)
    setAttr w object id new
  | .index bracket object i =>
    let object ← inner.expr object
    let i ← inner.expr i
    let old ← operateAt w bracket (Op.index object i)
    let new ← operateAt w pos (op.operator.apply old v)
    operateAt w bracket (Op.setIndex object i new)

end Evaluator

end Spellbook
