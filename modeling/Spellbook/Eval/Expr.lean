import Spellbook.Eval.Assign
import Spellbook.Eval.Call

/-! What each expression does. -/
namespace Spellbook.Evaluator

open Eval

variable (w : World) (inner : Evaluator)

/-- A connective. The right side is looked at only if the left side leaves the outcome open. -/
def connect (c : Connective) (left right : Expr) : Eval Value := do
  let l ← inner.test left
  match c, l with
  | .and, false => return .bool false
  | .or, true => return .bool true
  | _, _ => return .bool (← inner.test right)

def entries : List (Expr × Expr) → Eval (List (Value × Value))
  | [] => pure []
  | (key, value) :: rest => do
    let k ← inner.expr key
    let v ← inner.expr value
    let more ← entries rest
    return (k, v) :: more

/-- The text of a template, behind the text of the parts before. -/
def fill (text : String) : List Part → Eval String
  | [] => pure text
  | .text t :: rest => fill (text ++ t) rest
  | .hole e :: rest => do
    let v ← inner.expr e
    fill (text ++ (← print v)) rest

def evalExpr (e : Expr) : Eval Value := do
  match e with
  | .name id => lookup w id
  | .literal _ value => return .ofLiteral value
  | .unary pos op operand =>
    let v ← inner.expr operand
    operateAt w pos (op.apply v)
  | .binary _ (.connective c) left right => inner.connect c left right
  | .binary pos (.operator op) left right =>
    let l ← inner.expr left
    let r ← inner.expr right
    operateAt w pos (op.apply l r)
  | .preStep pos step target => return (← count w pos step target).2
  | .postStep pos step target => return (← count w pos step target).1
  | .call pos callee args =>
    let f ← inner.expr callee
    let vs ← inner.exprs args
    inner.callValue w pos f vs
  | .index pos object i =>
    let o ← inner.expr object
    let i ← inner.expr i
    operateAt w pos (Op.index o i)
  | .slice pos object start stop =>
    let o ← inner.expr object
    let start ← inner.expr? start
    let stop ← inner.expr? stop
    operateAt w pos (Op.slice o start stop)
  | .attr object id =>
    let o ← inner.expr object
    attr w o id
  | .array _ elements =>
    let vs ← inner.exprs elements
    create fun s => s.newArray vs.toArray
  | .tuple _ elements =>
    let vs ← inner.exprs elements
    create fun s => s.newTuple vs.toArray
  | .map pos pairs =>
    let pairs ← inner.entries pairs
    let table ← located w pos (Table.ofPairs pairs)
    create fun s => s.newMap table
  | .template _ parts => return .str (← inner.fill "" parts)
  | .super pos method => parentMethod w pos method

end Spellbook.Evaluator
