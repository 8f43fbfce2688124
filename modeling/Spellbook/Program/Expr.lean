import Spellbook.Token

/-! Expressions, with the places that failures are reported at. -/
namespace Spellbook

structure Ident where
  name : String
  pos : Pos
deriving DecidableEq, Repr

inductive UnaryOp where
  | negate | plus | bang | not | complement
deriving DecidableEq, Repr

def UnaryOp.text : UnaryOp → String
  | .negate => "-" | .plus => "+" | .bang => "!" | .not => "not" | .complement => "~"

/-- The two operators that look at their right side only if the left side leaves it open. -/
inductive Connective where
  | and | or
deriving DecidableEq, Repr

inductive Operator where
  | equal | notEqual | less | greater | lessEqual | greaterEqual | isIn | notIn
  | bitAnd | bitOr | bitXor | shiftLeft | shiftRight
  | add | sub | mul | div | mod | pow
deriving DecidableEq, Repr

def Operator.text : Operator → String
  | .equal => "==" | .notEqual => "!=" | .less => "<" | .greater => ">"
  | .lessEqual => "<=" | .greaterEqual => ">=" | .isIn => "in" | .notIn => "not in"
  | .bitAnd => "&" | .bitOr => "|" | .bitXor => "^" | .shiftLeft => "<<" | .shiftRight => ">>"
  | .add => "+" | .sub => "-" | .mul => "*" | .div => "/" | .mod => "%" | .pow => "**"

inductive BinaryOp where
  | connective (c : Connective)
  | operator (o : Operator)
deriving DecidableEq, Repr

def BinaryOp.text : BinaryOp → String
  | .connective .and => "and"
  | .connective .or => "or"
  | .operator o => o.text

inductive Step where
  | increment | decrement
deriving DecidableEq, Repr

def Step.text : Step → String
  | .increment => "++"
  | .decrement => "--"

mutual

inductive Expr where
  | name (id : Ident)
  | literal (pos : Pos) (value : Literal)
  | unary (pos : Pos) (op : UnaryOp) (operand : Expr)
  | binary (pos : Pos) (op : BinaryOp) (left right : Expr)
  /-- A step before the variable, whose value is the new one. -/
  | preStep (pos : Pos) (step : Step) (target : Ident)
  /-- A step behind the variable, whose value is the old one. -/
  | postStep (pos : Pos) (step : Step) (target : Ident)
  | call (pos : Pos) (callee : Expr) (args : List Expr)
  | index (pos : Pos) (object index : Expr)
  | slice (pos : Pos) (object : Expr) (start stop : Option Expr)
  | attr (object : Expr) (name : Ident)
  | array (pos : Pos) (elements : List Expr)
  | tuple (pos : Pos) (elements : List Expr)
  | map (pos : Pos) (entries : List (Expr × Expr))
  | template (pos : Pos) (parts : List Part)
  | super (pos : Pos) (method : Ident)

inductive Part where
  | text (s : String)
  | hole (e : Expr)

end

/-- Where a failure of the expression is reported. -/
def Expr.pos : Expr → Pos
  | .name id => id.pos
  | .literal pos _ => pos
  | .unary pos _ _ => pos
  | .binary pos _ _ _ => pos
  | .preStep pos _ _ => pos
  | .postStep pos _ _ => pos
  | .call pos _ _ => pos
  | .index pos _ _ => pos
  | .slice pos _ _ _ => pos
  | .attr _ member => member.pos
  | .array pos _ => pos
  | .tuple pos _ => pos
  | .map pos _ => pos
  | .template pos _ => pos
  | .super pos _ => pos

end Spellbook
