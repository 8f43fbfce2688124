import Spellbook.Program.Parser.Expr
import Spellbook.Program.Parser.Recovery
import Spellbook.Program.Printer
import Spellbook.Program.Stmt

/-! Statements and blocks. As for expressions, each function takes the parsers for the parts of a
statement as arguments, and `stmt` ties the knot. -/
namespace Spellbook.Parser

def maxParams : Nat := 255

structure Parts where
  fuel : Nat
  expr : Parse Expr
  stmt : Parse Stmt

/-- Statements up to a token that `ends` them. Stray line ends are passed over, and a statement
that fails is reported and skipped, as is a block that nothing opens. -/
def statements (stmt : Parse Stmt) (ends stray : Kind → Bool) : Nat → Parse (List Stmt)
  | 0 => outOfFuel
  | fuel + 1 => do
    let token ← cur
    if ends token.kind then return []
    else if stray token.kind then
      let _ ← advance
      statements stmt ends stray fuel
    else if token.kind = .indent then
      report ⟨token.pos, .unexpectedIndent⟩
      skipHere
      statements stmt ends stray fuel
    else
      match ← outcome stmt with
      | .ok s => return s :: (← statements stmt ends stray fuel)
      | .error d =>
        report d
        synchronize
        statements stmt ends stray fuel

def endsBlock : Kind → Bool
  | .dedent | .eof => true
  | _ => false

def isSeparator : Kind → Bool
  | .newline | .symbol .semicolon => true
  | _ => false

/-- The body of a compound statement: one statement on the same line, or a block below it. -/
def block (p : Parts) : Parse (List Stmt) := do
  let _ ← expect (.symbol .colon)
  if !(← check .newline) then return [← p.stmt]
  let _ ← advance
  if !(← check .indent) then failHere .missingBlock
  let _ ← advance
  let body ← statements p.stmt endsBlock isSeparator p.fuel
  let _ ← accept .dedent
  return body

def blockAfter (p : Parts) (k : Keyword) : Parse (Option (List Stmt)) := do
  if ← accept (.keyword k) then some <$> block p else return none

def binder : Parse (Option Ident) := do
  if ← accept (.keyword .as_) then some <$> ident else return none

def moreNames : Nat → Parse (List Ident)
  | 0 => outOfFuel
  | fuel + 1 => do
    if ← accept (.symbol .comma) then return (← ident) :: (← moreNames fuel) else return []

/-- More expressions, each behind a comma. The last comma may stand alone before the end of the
statement or an assignment. -/
def moreExprs (expr : Parse Expr) : Nat → Parse (List Expr)
  | 0 => outOfFuel
  | fuel + 1 => do
    if ← accept (.symbol .comma) then
      if endsStatement (← cur).kind || (← check (.symbol .assign)) then return []
      return (← expr) :: (← moreExprs expr fuel)
    else return []

/-- One expression, or a tuple without parentheses if a comma follows. -/
def exprList (p : Parts) : Parse Expr := do
  let first ← p.expr
  if ← check (.symbol .comma) then
    return .tuple first.pos (first :: (← moreExprs p.expr p.fuel))
  return first

/-- The parameters of a spell up to the closing parenthesis, of which `count` have been read. -/
def params (expr : Parse Expr) : Nat → Nat → Parse (List Param)
  | 0, _ => outOfFuel
  | fuel + 1, count => do
    if ← check (.symbol .rightParen) then return []
    if maxParams ≤ count then failHere (.tooManyParams maxParams)
    let name ← ident
    let hint ← if ← accept (.symbol .colon) then some <$> ident else pure none
    let default ← if ← accept (.symbol .assign) then some <$> expr else pure none
    let param : Param := ⟨name, hint, default⟩
    if ← accept (.symbol .comma) then return param :: (← params expr fuel (count + 1))
    return [param]

/-- A spell. An arcane one may end behind its signature. -/
def spell (p : Parts) (arcane : Bool) : Parse SpellDecl := do
  let _ ← accept (.keyword .spell)
  let name ← match (← cur).kind with
    | .ident | .keyword .init => identOf <$> advance
    | _ => unexpected .ident
  let _ ← expect (.symbol .leftParen)
  let params ← params p.expr p.fuel 0
  let _ ← expect (.symbol .rightParen)
  if arcane && !(← check (.symbol .colon)) then
    endStatement
    return ⟨name, params, [], arcane⟩
  return ⟨name, params, ← block p, arcane⟩

def skipNewlines : Nat → Parse Unit
  | 0 => outOfFuel
  | fuel + 1 => do
    if ← accept .newline then skipNewlines fuel

def arcaneSpell (p : Parts) : Parse Stmt := do
  let _ ← advance
  let _ ← expect (.keyword .arcanespell)
  skipNewlines p.fuel
  if !(← check (.keyword .spell)) then unexpected (.keyword .spell)
  return .spell (← spell p true)

inductive Member where
  | init (decl : SpellDecl)
  | method (decl : SpellDecl)
  | idle
  | stray

def Member.ofStmt : Stmt → Member
  | .spell decl => if decl.name.name = "init" then .init decl else .method decl
  | .expr (.literal ..) => .idle
  | .ignore _ => .idle
  | _ => .stray

/-- Declares a grimoire from the statements of its body. The last `init` counts, and what does not
belong there is reported at the name. -/
def grimoireOf (name : Ident) (parent : Option Ident) (arcane : Bool) (body : List Stmt) :
    Parse GrimoireDecl := do
  let members := body.map Member.ofStmt
  for m in members do
    match m with
    | .stray => report ⟨name.pos, .strayStatement name.name⟩
    | _ => pure ()
  let inits := members.filterMap fun
    | .init decl => some decl
    | _ => none
  let methods := members.filterMap fun
    | .method decl => some decl
    | _ => none
  return ⟨name, parent, inits.getLast?, methods, arcane⟩

def grimoire (p : Parts) : Parse Stmt := do
  let arcane ← accept (.keyword .arcane)
  let _ ← expect (.keyword .grim)
  let name ← ident
  let parent ← if ← accept (.symbol .leftParen) then do
      let parent ← ident
      let _ ← expect (.symbol .rightParen)
      pure (some parent)
    else pure none
  let body ← block p
  return .grimoire (← grimoireOf name parent arcane body)

def branches (p : Parts) : Nat → Parse (List (Expr × List Stmt))
  | 0 => outOfFuel
  | fuel + 1 => do
    if ← accept (.keyword .otherwise) then
      let condition ← p.expr
      let body ← block p
      return (condition, body) :: (← branches p fuel)
    else return []

def conditional (p : Parts) : Parse Stmt := do
  let word ← advance
  let condition ← p.expr
  let body ← block p
  let branches ← branches p p.fuel
  return .cond word.pos condition body branches (← blockAfter p .else_)

def whileLoop (p : Parts) : Parse Stmt := do
  let word ← advance
  let condition ← p.expr
  return .loop word.pos condition (← block p)

def pattern (p : Parts) : Parse Pattern := do
  let first ← ident
  if ← check (.symbol .comma) then
    return .tuple first.pos (first :: (← moreNames p.fuel))
  return .one first

def eachLoop (p : Parts) : Parse Stmt := do
  let word ← advance
  let pattern ← pattern p
  let _ ← expect (.keyword .in_)
  let iterable ← p.expr
  let body ← block p
  return .each word.pos pattern iterable body (← blockAfter p .else_)

def returnStmt (p : Parts) : Parse Stmt := do
  let word ← advance
  let value ← if endsStatement (← cur).kind then pure none else some <$> exprList p
  endStatement
  return .give word.pos value

def importStmt : Parse Stmt := do
  let word ← advance
  let path ← expect .str
  let path := match path.literal with
    | some (.str s) => s
    | _ => path.lexeme
  let binder ← binder
  endStatement
  return .load word.pos path binder

/-- The cases of a match, and the default if there is one. Of several defaults the last counts. -/
def cases (p : Parts) (default : Option (List Stmt)) :
    Nat → Parse (List (Expr × List Stmt) × Option (List Stmt))
  | 0 => outOfFuel
  | fuel + 1 => do
    match (← cur).kind with
    | .newline =>
      let _ ← advance
      cases p default fuel
    | .keyword .case_ =>
      let _ ← advance
      if ← accept (.symbol .underscore) then
        cases p (some (← block p)) fuel
      else
        let candidate ← p.expr
        let body ← block p
        let (more, default) ← cases p default fuel
        return ((candidate, body) :: more, default)
    | .symbol .underscore =>
      let _ ← advance
      cases p (some (← block p)) fuel
    | .dedent | .eof => return ([], default)
    | _ => unexpected (.keyword .case_)

def matchStmt (p : Parts) : Parse Stmt := do
  let word ← advance
  let subject ← p.expr
  let _ ← expect (.symbol .colon)
  let _ ← expect .newline
  let _ ← expect .indent
  let (cases, default) ← cases p none p.fuel
  let _ ← accept .dedent
  return .choose word.pos subject cases default

def ensnares (p : Parts) : Nat → Parse (List Ensnare)
  | 0 => outOfFuel
  | fuel + 1 => do
    if ← check (.keyword .ensnare) then
      let word ← advance
      let condition ← match (← cur).kind with
        | .symbol .colon | .keyword .as_ => pure none
        | _ => some <$> p.expr
      let binder ← binder
      let body ← block p
      return ⟨word.pos, condition, binder, body⟩ :: (← ensnares p fuel)
    else return []

def attemptStmt (p : Parts) : Parse Stmt := do
  let word ← advance
  let body ← block p
  let ensnares ← ensnares p p.fuel
  return .attempt word.pos body ensnares (← blockAfter p .resolve)

def withinStmt (p : Parts) : Parse Stmt := do
  let word ← advance
  let resource ← p.expr
  let binder ← binder
  return .within word.pos resource binder (← block p)

def globalStmt (p : Parts) : Parse Stmt := do
  let word ← advance
  let first ← ident
  let more ← moreNames p.fuel
  endStatement
  return .global word.pos (first :: more)

def place? : Expr → Option Place
  | .name id => some (.name id)
  | .attr object member => some (.attr object member)
  | .index pos object i => some (.index pos object i)
  | _ => none

def names? : List Expr → Option (List Ident)
  | [] => some []
  | .name id :: more => (names? more).map (id :: ·)
  | _ :: _ => none

def target? : Expr → Option Target
  | .tuple pos es => (names? es).map (.tuple pos)
  | e => (place? e).map .place

def update? : Kind → Option Update
  | .symbol .plusAssign => some .add
  | .symbol .minusAssign => some .sub
  | .symbol .starAssign => some .mul
  | .symbol .slashAssign => some .div
  | _ => none

def exprStmt (p : Parts) : Parse Stmt := do
  let left ← exprList p
  let token ← cur
  if token.kind = .symbol .assign then
    let _ ← advance
    let some target := target? left | failAt token.pos (.badTarget token.lexeme left.print)
    let value ← exprList p
    endStatement
    return .assign target token.pos value
  match update? token.kind with
  | some op =>
    let _ ← advance
    let some place := place? left | failAt token.pos (.badTarget token.lexeme left.print)
    let value ← exprList p
    endStatement
    return .update place op token.pos value
  | none =>
    endStatement
    return .expr left

def wordStmt (make : Pos → Stmt) : Parse Stmt := do
  let word ← advance
  endStatement
  return make word.pos

def stmtOf (p : Parts) : Parse Stmt := do
  match (← cur).kind with
  | .keyword .spell | .keyword .init => return .spell (← spell p false)
  | .symbol .atSign => arcaneSpell p
  | .keyword .arcane | .keyword .grim => grimoire p
  | .keyword .if_ => conditional p
  | .keyword .while_ => whileLoop p
  | .keyword .for_ => eachLoop p
  | .keyword .return_ => returnStmt p
  | .keyword .import_ => importStmt
  | .keyword .match_ => matchStmt p
  | .keyword .attempt => attemptStmt p
  | .keyword .raise =>
    let word ← advance
    let value ← p.expr
    endStatement
    return .raise word.pos value
  | .keyword .stop => wordStmt .stop
  | .keyword .skip => wordStmt .skip
  | .keyword .ignore => wordStmt .ignore
  | .keyword .global => globalStmt p
  | .keyword .with_ => withinStmt p
  | .keyword .main =>
    let word ← advance
    return .main word.pos (← block p)
  | _ => exprStmt p

/-- One statement. The fuel bounds the nesting, each level of which takes at least one token. -/
def stmt : Nat → Parse Stmt
  | 0 => outOfFuel
  | fuel + 1 => stmtOf ⟨fuel, exprAt fuel .lowest, stmt fuel⟩

def isTopSeparator : Kind → Bool
  | .newline | .symbol .semicolon | .dedent => true
  | _ => false

def program (fuel : Nat) : Parse (List Stmt) :=
  statements (stmt fuel) (· == .eof) isTopSeparator fuel

end Spellbook.Parser
