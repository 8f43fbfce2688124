import Spellbook.Import
import Spellbook.Operator.Apply
import Spellbook.Store.Printer

/-! The state of a running program, and the steps all rules of evaluation are made of. -/
namespace Spellbook

structure World where
  files : Files
  /-- The directory that imports start from. -/
  base : Path
  /-- How many calls may be under way at a time. -/
  maxDepth : Nat
  /-- How many calls, the innermost first, a failure lists. -/
  traceLimit : Nat

structure Machine where
  store : Store
  /-- Where names are looked up and bound. -/
  scope : Ref .scope
  /-- The calls under way, the innermost first. -/
  frames : List Frame
  /-- The grimoire whose method is running. It decides on access to private methods. -/
  owner : Option (Ref .grimoire)
  /-- The file whose statements are running. -/
  file : Option String
  /-- The files whose statements have been started by an import, the last one first. -/
  imported : List Path
  /-- All that was printed. -/
  output : String

inductive Halt where
  | raised (failure : Ref .failure)
  /-- The bound on the length of a run was reached. -/
  | outOfFuel
deriving DecidableEq, Repr

/-- How a statement ends if nothing is raised. All but a value also ends the statements around it,
up to the loop or call that it is for. -/
inductive Flow where
  | value (v : Value)
  | give (v : Value)
  | stop
  | skip
deriving DecidableEq, Repr

abbrev Eval := EStateM Halt Machine

namespace Eval

variable {α : Type}

def look (f : Machine → α) : Eval α := fun m => .ok (f m) m

def view (f : Store → α) : Eval α := fun m => .ok (f m.store) m

def write (text : String) : Eval Unit :=
  modify fun m => { m with output := m.output ++ text }

def location (pos : Pos) : Eval Location := look fun m => ⟨m.file, pos.line, pos.col⟩

def trace (w : World) : Eval (List Frame) := look fun m => m.frames.take w.traceLimit

def raise (f : Failure) : Eval α := fun m =>
  let (r, store) := m.store.newFailure f
  .error (.raised r) { m with store := store }

def fail (w : World) (pos : Pos) (fault : Fault) : Eval α := do
  let location ← location pos
  let stack ← trace w
  raise (.traced ⟨fault.errorName, fault.message, location, none, stack, []⟩)

/-- The outcome of something that does not know its place, given one. -/
def located (w : World) (pos : Pos) : Except Fault α → Eval α
  | .ok a => pure a
  | .error fault => fail w pos fault

def operate (act : Op α) : Eval (Except Fault α) :=
  fun ⟨store, scope, frames, owner, file, imported, output⟩ =>
    match act store with
    | .ok a store => .ok (.ok a) ⟨store, scope, frames, owner, file, imported, output⟩
    | .error fault store =>
      .ok (.error fault) ⟨store, scope, frames, owner, file, imported, output⟩

/-- Runs an operation on the store whose refusal is a failure at `pos`. -/
def operateAt (w : World) (pos : Pos) (act : Op α) : Eval α := do located w pos (← operate act)

def create (make : Store → α × Store) : Eval α := fun m =>
  let (a, store) := make m.store
  .ok a { m with store := store }

def change (f : Store → Store) : Eval Unit := modify fun m => { m with store := f m.store }

def changeScopes (f : Forest Value → Forest Value) : Eval Unit :=
  change fun s => { s with scopes := f s.scopes }

/-- What becomes of an action that may raise something. -/
def caught (act : Eval α) : Eval (Except (Ref .failure) α) := fun m =>
  match act m with
  | .ok a m => .ok (.ok a) m
  | .error (.raised r) m => .ok (.error r) m
  | .error .outOfFuel m => .error .outOfFuel m

def resume : Except (Ref .failure) α → Eval α
  | .ok a => pure a
  | .error r => throw (.raised r)

/-- Runs an action between two changes of the state, of which the second knows the state before the
first and comes however the action ends. -/
def bracket {β : Type} (save : Machine → β) (enter : Machine → Machine)
    (leave : β → Machine → Machine) (act : Eval α) : Eval α := fun m =>
  let saved := save m
  match act (enter m) with
  | .ok a m => .ok a (leave saved m)
  | .error h m => .error h (leave saved m)

def inScope (scope : Ref .scope) (act : Eval α) : Eval α :=
  bracket (·.scope) (fun m => { m with scope := scope }) (fun saved m => { m with scope := saved })
    act

/-- Runs an action with the access rights of a grimoire's methods, or of none. -/
def ownedBy (owner : Option (Ref .grimoire)) (act : Eval α) : Eval α :=
  bracket (·.owner) (fun m => { m with owner := owner }) (fun saved m => { m with owner := saved })
    act

def inFile (file : String) (act : Eval α) : Eval α :=
  bracket (·.file) (fun m => { m with file := some file })
    (fun saved m => { m with file := saved }) act

def inCall (frame : Frame) (act : Eval α) : Eval α :=
  bracket (fun _ => ()) (fun m => { m with frames := frame :: m.frames })
    (fun _ m => { m with frames := m.frames.tail }) act

def get? (name : String) : Eval (Option Value) := look fun m => m.store.scopes.get? m.scope name

def lookup (w : World) (id : Ident) : Eval Value := do
  match ← get? id.name with
  | some v => return v
  | none => fail w id.pos (.unbound id.name)

def define (name : String) (v : Value) : Eval Unit := do
  let scope ← look (·.scope)
  changeScopes fun f => f.define scope name v

/-- Assigns to a name: where it is bound, and if it is not, in the scope itself. A name that was
declared global is assigned in the outermost scope. -/
def assign (name : String) (v : Value) : Eval Unit := do
  let scope ← look (·.scope)
  changeScopes fun f => f.define (f.home scope name) name v

def push (parent : Ref .scope) : Eval (Ref .scope) :=
  create fun s =>
    let (r, scopes) := s.scopes.push parent
    (r, { s with scopes := scopes })

def print (v : Value) : Eval String := view fun s => s.print v

def truthy (v : Value) : Eval Bool := view fun s => s.truthy v

end Eval

end Spellbook
