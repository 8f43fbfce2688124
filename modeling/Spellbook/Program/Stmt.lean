import Spellbook.Program.Expr

/-! Statements and whole programs. -/
namespace Spellbook

/-- What a compound assignment can write to. -/
inductive Place where
  | name (id : Ident)
  | attr (object : Expr) (name : Ident)
  | index (pos : Pos) (object index : Expr)

/-- What a plain assignment can write to: a place, or several names at once. -/
inductive Target where
  | place (p : Place)
  | tuple (pos : Pos) (names : List Ident)

inductive Pattern where
  | one (id : Ident)
  | tuple (pos : Pos) (names : List Ident)

inductive Update where
  | add | sub | mul | div
deriving DecidableEq, Repr

def Update.operator : Update → Operator
  | .add => .add | .sub => .sub | .mul => .mul | .div => .div

def Update.text (u : Update) : String := u.operator.text ++ "="

def Step.operator : Step → Operator
  | .increment => .add
  | .decrement => .sub

def Place.toExpr : Place → Expr
  | .name id => .name id
  | .attr object member => .attr object member
  | .index pos object i => .index pos object i

def Target.toExpr : Target → Expr
  | .place p => p.toExpr
  | .tuple pos names => .tuple pos (names.map .name)

def Pattern.toTarget : Pattern → Target
  | .one id => .place (.name id)
  | .tuple pos names => .tuple pos names

structure Param where
  name : Ident
  hint : Option Ident
  default : Option Expr

mutual

inductive Stmt where
  | expr (e : Expr)
  | assign (target : Target) (pos : Pos) (value : Expr)
  | update (place : Place) (op : Update) (pos : Pos) (value : Expr)
  | give (pos : Pos) (value : Option Expr)
  | cond (pos : Pos) (condition : Expr) (body : List Stmt) (branches : List (Expr × List Stmt))
      (otherwise : Option (List Stmt))
  | loop (pos : Pos) (condition : Expr) (body : List Stmt)
  | each (pos : Pos) (pattern : Pattern) (iterable : Expr) (body : List Stmt)
      (otherwise : Option (List Stmt))
  | spell (decl : SpellDecl)
  | grimoire (decl : GrimoireDecl)
  | load (pos : Pos) (path : String) (binder : Option Ident)
  | choose (pos : Pos) (subject : Expr) (cases : List (Expr × List Stmt))
      (default : Option (List Stmt))
  | attempt (pos : Pos) (body : List Stmt) (ensnares : List Ensnare)
      (resolve : Option (List Stmt))
  | raise (pos : Pos) (value : Expr)
  | stop (pos : Pos)
  | skip (pos : Pos)
  | ignore (pos : Pos)
  | global (pos : Pos) (names : List Ident)
  | within (pos : Pos) (resource : Expr) (binder : Option Ident) (body : List Stmt)
  | main (pos : Pos) (body : List Stmt)

/-- The declaration of a spell. An arcane spell has only a signature. -/
structure SpellDecl where
  name : Ident
  params : List Param
  body : List Stmt
  arcane : Bool

structure GrimoireDecl where
  name : Ident
  parent : Option Ident
  init : Option SpellDecl
  methods : List SpellDecl
  arcane : Bool

structure Ensnare where
  pos : Pos
  condition : Option Expr
  binder : Option Ident
  body : List Stmt

end

def Stmt.isMain : Stmt → Bool
  | .main .. => true
  | _ => false

structure Program where
  statements : List Stmt

def Program.hasMain (p : Program) : Bool := p.statements.any Stmt.isMain

end Spellbook
