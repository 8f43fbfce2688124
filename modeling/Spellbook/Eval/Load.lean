import Spellbook.Eval.Basic
import Spellbook.Program.Parser
import Spellbook.Report

/-! Imports. A file is run once: its statements run in a scope inside the importing one. -/
namespace Spellbook.Evaluator

open Eval

variable (w : World) (inner : Evaluator)

/-- A whole program. If it has main blocks they come last, and give its value; a module that is
imported does not run them. -/
def program (p : Program) (runMain : Bool) : Eval Flow :=
  if p.hasMain then do
    match ← inner.block (p.statements.filter fun s => !s.isMain) with
    | .value _ =>
      if runMain then inner.block (p.statements.filter Stmt.isMain) else return .value .none
    | flow => return flow
  else inner.block p.statements

variable {α : Type}

def loadFailure (pos : Pos) (message : String) (cause : Option Failure)
    (details : List (String × String)) : Eval α := do
  let location ← location pos
  let stack ← trace w
  raise (.traced ⟨"ImportError", message, location, cause, stack, details⟩)

def loadReport (pos : Pos) (name : String) (path : Path) (source : String)
    (diagnostics : List Diagnostic) : Eval α := do
  let location ← location pos
  let related := diagnostics.map fun d =>
    { Report.ofDiagnostic (some path.text) d with source := some source }
  let report := Report.plain .loading "ImportError" ("module '" ++ name ++ "' has syntax errors")
  raise (.reported { report.pointAt location with
    labels := [{ Span.point location with label := some "imported here" }]
    related := related })

/-- Runs the statements of a module in a scope of its own. From here on the module counts as
imported, so that modules can import each other. -/
def runModule (pos : Pos) (name : String) (path : Path) (p : Program) : Eval (Ref .scope) := do
  let scope ← push (← look (·.scope))
  modify fun m => { m with imported := path :: m.imported }
  match ← caught (inFile path.text <| inScope scope <| ownedBy none <| inner.program p false) with
  | .ok _ => return scope
  | .error failure =>
    let cause ← view fun s => s.failure failure
    loadFailure w pos ("error while importing '" ++ name ++ "'") (some cause) []

def loadModule (pos : Pos) (name : String) (path : Path) : Eval (Ref .scope) := do
  match w.files.read path with
  | .error e =>
    loadFailure w pos ("cannot import '" ++ name ++ "'") (some (.plain e.message))
      [("path", path.text)]
  | .ok source =>
    let parsed := parse source
    match parsed.diagnostics with
    | [] => inner.runModule w pos name path parsed.program
    | diagnostics => loadReport pos name path source diagnostics

/-- Binds names to those of their values that are grimoires. -/
def bindGrimoires : List (String × Value) → Eval Unit
  | [] => pure ()
  | (name, .grimoire g) :: rest => do
    define name (.grimoire g)
    bindGrimoires rest
  | _ :: rest => bindGrimoires rest

/-- Binds what an import asks for: the module under a name of its own, one grimoire, or all of
them. -/
def bindImport (pos : Pos) (name : String) (grimoire : Option String) (binder : Option Ident)
    (scope : Ref .scope) : Eval Unit := do
  match grimoire, binder with
  | none, some id =>
    let v ← create fun s => s.newSpace ⟨id.name, scope⟩
    define id.name v
  | some g, binder =>
    match ← view fun s => s.scopes.getLocal? scope g with
    | some (.grimoire r) => define ((binder.map (·.name)).getD g) (.grimoire r)
    | _ => loadFailure w pos ("grimoire " ++ g ++ " not found in '" ++ name ++ "'") none []
  | none, none =>
    let all ← view fun s => s.scopes.entries scope
    bindGrimoires all

/-- An import statement. A module that was imported before is left alone. -/
def load (pos : Pos) (name : String) (binder : Option Ident) : Eval Unit := do
  let wanted := Import.ofText name
  let path := wanted.locate w.files w.base
  if path.isAmong (← look (·.imported)) then return
  else
    let scope ← inner.loadModule w pos name path
    bindImport w pos name wanted.grimoire binder scope

end Spellbook.Evaluator
