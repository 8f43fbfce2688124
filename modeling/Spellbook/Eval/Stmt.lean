import Spellbook.Eval.Attempt
import Spellbook.Eval.Expr
import Spellbook.Eval.Load

/-! What each statement does. -/
namespace Spellbook.Evaluator

open Eval

variable (w : World) (inner : Evaluator)

/-- The first branch whose condition is true, or the last resort. -/
def branch (otherwise : Option (List Stmt)) : List (Expr × List Stmt) → Eval Flow
  | [] => inner.block? otherwise
  | (condition, body) :: rest => do
    if ← inner.test condition then inner.block body else branch otherwise rest

def turn (condition : Expr) (body : List Stmt) : Nat → Eval Flow
  | 0 => throw .outOfFuel
  | turns + 1 => do
    if ← inner.test condition then
      match ← inner.block body with
      | .value _ | .skip => turn condition body turns
      | .stop => return .value .none
      | .give v => return .give v
    else return .value .none

/-- Turns once for each element. Only a loop that was not stopped goes on to `otherwise`. -/
def turnOver (pattern : Pattern) (body : List Stmt) (otherwise : Option (List Stmt)) :
    List Value → Eval Flow
  | [] => inner.block? otherwise
  | v :: rest => do
    assignPattern w pattern v
    match ← inner.block body with
    | .value _ | .skip => turnOver pattern body otherwise rest
    | .stop => return .value .none
    | .give v => return .give v

/-- A loop over the elements that a value has when the loop begins. -/
def iterate (pattern : Pattern) (iterable : Expr) (body : List Stmt)
    (otherwise : Option (List Stmt)) : Eval Flow := do
  let v ← inner.expr iterable
  match ← view fun s => s.elements? v with
  | some elements => inner.turnOver w pattern body otherwise elements.toList
  | none => fail w iterable.pos (.notIterable v.typeName)

def select (subject : Value) (default : Option (List Stmt)) : List (Expr × List Stmt) → Eval Flow
  | [] => inner.block? default
  | (candidate, body) :: rest => do
    let v ← inner.expr candidate
    if ← view fun s => s.matchesCase subject v then inner.block body
    else select subject default rest

def declareSpell (decl : SpellDecl) : Eval Unit := do
  let scope ← look (·.scope)
  let v ← create fun s => s.newSpell ⟨decl, scope⟩
  define decl.name.name v

def parentOf : Option Ident → Eval (Option (Ref .grimoire))
  | none => pure none
  | some id => do
    match ← lookup w id with
    | .grimoire r => return some r
    | v => fail w id.pos (.notParent v.typeName)

/-- Declares a grimoire. Of two methods with one name the later counts. -/
def declareGrimoire (decl : GrimoireDecl) : Eval Unit := do
  let parent ← parentOf w decl.parent
  let methods : Bindings SpellDecl :=
    decl.methods.foldl (fun all m => all.set m.name.name m) []
  let scope ← look (·.scope)
  let v ← create fun s =>
    s.newGrimoire ⟨decl.name.name, parent, decl.init, methods, scope, decl.arcane⟩
  define decl.name.name v

def close (resource : Value) : Eval (Except Fault Unit) := do
  match resource with
  | .object r =>
    match ← view fun s => s.findMethod? (s.object r).grimoire "close" with
    | some (decl, owner) =>
      match ← inner.invokeMethod .close decl ⟨resource, owner⟩ [] with
      | .ok _ => return .ok ()
      | .error fault => return .error fault
    | none => return .ok ()
  | _ => return .ok ()

/-- Uses a resource in a scope of its own, and closes it however the body ends. What goes wrong with
closing is reported unless the body has failed already. -/
def use (pos : Pos) (resource : Expr) (binder : Option Ident) (body : List Stmt) : Eval Flow := do
  let v ← inner.expr resource
  let scope ← push (← look (·.scope))
  let outcome ← caught <| inScope scope do
    match binder with
    | some id => define id.name v
    | none => pure ()
    inner.block body
  let closed ← caught (inner.close v)
  match outcome, closed with
  | .error failure, _ => throw (.raised failure)
  | .ok _, .error failure => throw (.raised failure)
  | .ok _, .ok (.error fault) => fail w pos fault
  | .ok flow, .ok (.ok ()) => return flow

/-- Sends later assignments of names to the outermost scope. -/
def declareGlobals (scope : Ref .scope) : List Ident → Eval Unit
  | [] => pure ()
  | id :: rest => do
    changeScopes fun f => f.declareGlobal scope id.name
    declareGlobals scope rest

def done : Flow := .value .none

def evalStmt (s : Stmt) : Eval Flow := do
  match s with
  | .expr e => return .value (← inner.expr e)
  | .assign target _ value =>
    let v ← inner.expr value
    inner.assign w target v
    return done
  | .update place op pos value =>
    let v ← inner.expr value
    inner.update w place op pos v
    return done
  | .give _ none => return .give .none
  | .give _ (some e) => return .give (← inner.expr e)
  | .cond _ condition body branches otherwise =>
    inner.branch otherwise ((condition, body) :: branches)
  | .loop _ condition body => inner.turn condition body inner.turns
  | .each _ pattern iterable body otherwise => inner.iterate w pattern iterable body otherwise
  | .spell decl => do declareSpell decl; return done
  | .grimoire decl => do declareGrimoire w decl; return done
  | .load pos path binder => do inner.load w pos path binder; return done
  | .choose _ subject cases default =>
    let v ← inner.expr subject
    inner.select v default cases
  | .attempt _ body handlers resolve => inner.attempt body handlers resolve
  | .raise pos value =>
    let v ← inner.expr value
    raiseValue w pos v
  | .stop _ => return .stop
  | .skip _ => return .skip
  | .ignore _ => return done
  | .global _ names => do declareGlobals (← look (·.scope)) names; return done
  | .within pos resource binder body => inner.use w pos resource binder body
  | .main _ body => inner.block body

end Spellbook.Evaluator
