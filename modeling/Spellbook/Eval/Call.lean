import Spellbook.Builtin
import Spellbook.Eval.Basic

/-! Calls. What goes wrong before the body of a spell runs has no place of its own: it is reported
where the call is. -/
namespace Spellbook.Evaluator

open Eval

variable (w : World) (inner : Evaluator)

/-- The argument of a parameter: what is passed, else its default, else `None`. -/
def argument (p : Param) (passed : Option Value) : Eval Value :=
  match passed, p.default with
  | some v, _ => pure v
  | none, some e => inner.expr e
  | none, none => pure .none

def hintFault? (s : Store) (p : Param) (v : Value) : Option Fault :=
  match p.hint with
  | none => none
  | some hint =>
    if s.satisfies v hint.name then none
    else some (.badArgument p.name.name hint.name (s.kind v))

/-- Binds parameters from left to right, so that a default can use those before it. -/
def bindParams : List Param → List Value → Eval (Except Fault Unit)
  | [], _ => pure (.ok ())
  | p :: rest, args => do
    let v ← inner.argument p args.head?
    match ← view fun s => hintFault? s p v with
    | some fault => return .error fault
    | none =>
      define p.name.name v
      bindParams rest args.tail

/-- The receiver of a method, and the grimoire that declares the method. -/
structure Receiver where
  value : Value
  owner : Ref .grimoire

/-- Binds what a method knows beside its parameters. -/
def bindReceiver : Option Receiver → Eval Unit
  | none => pure ()
  | some receiver => do
    define "self" receiver.value
    match ← view fun s => (s.grimoire receiver.owner).parent with
    | some parent => define "super" (.grimoire parent)
    | none => return

def body (decl : SpellDecl) (args : List Value) : Eval (Except Fault Value) := do
  match ← inner.bindParams decl.params args with
  | .error fault => return .error fault
  | .ok () =>
    match ← inner.block decl.body with
    | .value v | .give v => return .ok v
    | .stop | .skip => fail w decl.name.pos .strayControl

/-- Runs a spell in a new scope inside the one that it was declared in. -/
def invoke (start : Start) (decl : SpellDecl) (scope : Ref .scope) (receiver : Option Receiver)
    (args : List Value) : Eval (Except Fault Value) :=
  if decl.arcane then pure (.error (.arcaneSpell decl.name.name))
  else do
    let fresh ← push scope
    inScope fresh <| ownedBy (receiver.map (·.owner)) <| do
      bindReceiver receiver
      inner.spell start decl args

def invokeMethod (start : Start) (decl : SpellDecl) (receiver : Receiver) (args : List Value) :
    Eval (Except Fault Value) := do
  let scope ← view fun s => (s.grimoire receiver.owner).scope
  inner.invoke start decl scope (some receiver) args

def abstractFault? (s : Store) (r : Ref .grimoire) : Option Fault :=
  let g := s.grimoire r
  if g.arcane then some (.arcaneGrimoire g.name)
  else (s.unimplemented? r).map (.unimplemented g.name)

/-- Makes an instance of a grimoire and runs the nearest `init`. -/
def instantiate (r : Ref .grimoire) (args : List Value) : Eval (Except Fault Value) := do
  match ← view fun s => abstractFault? s r with
  | some fault => return .error fault
  | none =>
    let o ← create fun s => s.newObject ⟨r, []⟩
    match ← view fun s => s.findInit? r with
    | none => return .ok (.object o)
    | some (init, owner) =>
      match ← inner.invokeMethod .call init ⟨.object o, owner⟩ args with
      | .error fault => return .error fault
      | .ok _ => return .ok (.object o)

def applyBuiltin (b : Builtin) (args : List Value) : Eval (Except Fault Value) := do
  match b with
  | .print =>
    let texts ← view fun s => args.map s.print
    write (Text.joined " " texts ++ "\n")
    return .ok .none
  | b => operate (b.apply args)

/-- Something that is run as a call: its name, and how it is run. -/
def activation? (s : Store) (callee : Value) (args : List Value) :
    Option (String × Eval (Except Fault Value)) :=
  match callee with
  | .spell r => (s.spell? r).map fun f =>
      (f.decl.name.name, inner.invoke .call f.decl f.scope none args)
  | .method r => (s.method? r).map fun m =>
      (m.decl.name.name, inner.invokeMethod .call m.decl ⟨m.receiver, m.owner⟩ args)
  | .grimoire r => some ((s.grimoire r).name, inner.instantiate r args)
  | _ => none

def onRecord (pos : Pos) (name : String) (run : Eval (Except Fault Value)) : Eval Value := do
  if w.maxDepth ≤ (← look (·.frames.length)) then fail w pos .tooDeep
  else
    let frame := ⟨name, ← location pos⟩
    located w pos (← inCall frame run)

def activate (pos : Pos) (callee : Value) (args : List Value) : Eval Value := do
  match ← view fun s => inner.activation? s callee args with
  | none => fail w pos (.notCallable callee.typeName)
  | some (name, run) => onRecord w pos name run

def callValue (pos : Pos) (callee : Value) (args : List Value) : Eval Value := do
  match ← view fun s => s.arity? callee with
  | none => fail w pos (.notCallable callee.typeName)
  | some arity =>
    if arity.accepts args.length then
      match callee with
      | .builtin b => located w pos (← applyBuiltin b args)
      | _ => inner.activate w pos callee args
    else fail w pos (.argumentCount arity.text args.length)

end Spellbook.Evaluator
