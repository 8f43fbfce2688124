import Spellbook.Machine

/-! The rules of evaluation say what a construct does in terms of what its parts do. -/
namespace Spellbook

inductive Start where
  /-- A call, which is on record while the spell runs. -/
  | call
  /-- The end of a statement that uses a resource. -/
  | close
deriving DecidableEq, Repr

structure Evaluator where
  expr : Expr → Eval Value
  stmt : Stmt → Eval Flow
  /-- A spell is given its arguments in the scope that was made for it. -/
  spell : Start → SpellDecl → List Value → Eval (Except Fault Value)
  /-- How many times a loop may turn. -/
  turns : Nat

namespace Evaluator

variable (inner : Evaluator)

def exprs : List Expr → Eval (List Value)
  | [] => pure []
  | e :: rest => do
    let v ← inner.expr e
    let vs ← exprs rest
    return v :: vs

def expr? : Option Expr → Eval (Option Value)
  | none => pure none
  | some e => do return some (← inner.expr e)

def test (e : Expr) : Eval Bool := do Eval.truthy (← inner.expr e)

/-- Statements in order, up to the first that does not end with a value. The value of all is that of
the last, or `last` if there is none. -/
def blockAfter (last : Value) : List Stmt → Eval Flow
  | [] => pure (.value last)
  | s :: rest => do
    match ← inner.stmt s with
    | .value v => blockAfter v rest
    | flow => return flow

def block (body : List Stmt) : Eval Flow := inner.blockAfter .none body

def block? : Option (List Stmt) → Eval Flow
  | some body => inner.block body
  | none => pure (.value .none)

end Evaluator

end Spellbook
