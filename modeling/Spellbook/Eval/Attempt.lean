import Spellbook.Eval.Basic
import Spellbook.Store.Lineage
import Spellbook.Text.Lines

/-! Raising and catching. -/
namespace Spellbook

namespace Eval

variable {α : Type} (w : World)

def raiseCustom (pos : Pos) (name message : String) (object : Option (Ref .object)) : Eval α := do
  let location ← location pos
  let stack ← trace w
  raise (.custom ⟨name, message, object, location, stack⟩)

/-- Raises a value. What was caught keeps the place it was first raised at. -/
def raiseValue (pos : Pos) (v : Value) : Eval α := do
  match v with
  | .error r =>
    match ← view fun s => s.failure r with
    | .custom c => raiseCustom w pos c.name c.message c.object
    | _ => throw (.raised r)
  | .caught r => throw (.raised r)
  | .str message => raiseCustom w pos "Error" message none
  | .object r =>
    let name ← view fun s => (s.grimoire (s.object r).grimoire).name
    let message ← view fun s => ((s.field? r "message").map s.print).getD ""
    raiseCustom w pos name message (some r)
  | v => fail w pos (.notRaisable v.typeName)

end Eval

/-- Whether a failure is of the kind that a value names: raised from a grimoire or one that inherits
from it, by the name of the error, or by how its message starts. -/
def Store.isKind (s : Store) (f : Failure) : Value → Bool
  | .grimoire g =>
    (f.object?.any fun o => s.inherits (s.object o).grimoire g) || f.name == (s.grimoire g).name
  | .str text => f.name == text || Text.startsWith f.message text
  | .error r | .caught r => f.name == (s.failure r).name
  | _ => false

namespace Evaluator

open Eval

variable (inner : Evaluator)

/-- The name that a handler binds to whatever it catches: a bare name that means nothing yet. -/
def catchAll? (h : Ensnare) : Eval (Option String) := do
  match h.condition with
  | some (.name id) =>
    match ← get? id.name with
    | none => return some id.name
    | some _ => return none
  | _ => return none

def handles (h : Ensnare) (failure : Ref .failure) : Eval Bool := do
  match h.condition with
  | none => return true
  | some condition =>
    if (← catchAll? h).isSome then return true
    else
      let v ← inner.expr condition
      view fun s => s.isKind (s.failure failure) v

def handle (h : Ensnare) (failure : Ref .failure) : Eval Flow := do
  match ← catchAll? h with
  | some name => define name (.caught failure)
  | none => pure ()
  match h.binder with
  | some id => define id.name (.caught failure)
  | none => pure ()
  inner.block h.body

/-- Runs the first handler that is for a failure, which goes on if there is none. -/
def dispatch (failure : Ref .failure) : List Ensnare → Eval Flow
  | [] => throw (.raised failure)
  | h :: rest => do
    if ← inner.handles h failure then inner.handle h failure else dispatch failure rest

/-- Runs the closing part of an attempt that failed. What it ends with counts if that is not a
value, and else what the handlers ended with. -/
def settle (resolve : Option (List Stmt)) (outcome : Except (Ref .failure) Flow) : Eval Flow := do
  match resolve with
  | none => resume outcome
  | some body =>
    match ← inner.block body with
    | .value _ => resume outcome
    | flow => return flow

def attempt (body : List Stmt) (handlers : List Ensnare) (resolve : Option (List Stmt)) :
    Eval Flow := do
  match ← caught (inner.block body) with
  | .ok flow => return flow
  | .error failure =>
    let outcome ← caught (inner.dispatch failure handlers)
    inner.settle resolve outcome

end Evaluator

end Spellbook
