import Spellbook.Number.Layout
import Spellbook.Program.Expr
import Spellbook.Text.Lines
import Spellbook.Text.Quoted

/-! Expressions as text, with every operation in parentheses. -/
namespace Spellbook

def Literal.print : Literal → String
  | .none => "None"
  | .int n => toString n
  | .float x => Number.literalText x
  | .str s => Text.quoted s
  | .bool true => "True"
  | .bool false => "False"

mutual

def Expr.print : Expr → String
  | .name id => id.name
  | .literal _ value => value.print
  | .unary _ .not operand => "(not " ++ operand.print ++ ")"
  | .unary _ op operand => "(" ++ op.text ++ operand.print ++ ")"
  | .binary _ op left right => "(" ++ left.print ++ " " ++ op.text ++ " " ++ right.print ++ ")"
  | .preStep _ step target => "(" ++ step.text ++ target.name ++ ")"
  | .postStep _ step target => "(" ++ target.name ++ step.text ++ ")"
  | .call _ callee args => callee.print ++ "(" ++ Expr.printAll args ++ ")"
  | .index _ object i => "(" ++ object.print ++ "[" ++ i.print ++ "])"
  | .slice _ object start stop =>
    "(" ++ object.print ++ "[" ++ Expr.printBound start ++ ":" ++ Expr.printBound stop ++ "])"
  | .attr object member => object.print ++ "." ++ member.name
  | .array _ elements => "[" ++ Expr.printAll elements ++ "]"
  | .tuple _ elements =>
    "(" ++ Expr.printAll elements ++ (if elements.length = 1 then "," else "") ++ ")"
  | .map _ entries => "\x7b" ++ Expr.printEntries entries ++ "\x7d"
  | .template _ parts => "f\"" ++ Part.printAll parts ++ "\""
  | .super _ method => "super." ++ method.name

def Expr.printAll : List Expr → String
  | [] => ""
  | [e] => e.print
  | e :: more => e.print ++ ", " ++ Expr.printAll more

def Expr.printEntries : List (Expr × Expr) → String
  | [] => ""
  | [(k, v)] => k.print ++ ": " ++ v.print
  | (k, v) :: more => k.print ++ ": " ++ v.print ++ ", " ++ Expr.printEntries more

def Expr.printBound : Option Expr → String
  | none => ""
  | some e => e.print

def Part.printAll : List Part → String
  | [] => ""
  | .text s :: more => s ++ Part.printAll more
  | .hole e :: more => "\x7b" ++ e.print ++ "\x7d" ++ Part.printAll more

end

theorem Expr.print_unary {pos : Pos} {op : UnaryOp} {operand : Expr} (h : op ≠ .not) :
    (Expr.unary pos op operand).print = "(" ++ op.text ++ operand.print ++ ")" := by
  rw [Expr.print]
  exact h

end Spellbook
