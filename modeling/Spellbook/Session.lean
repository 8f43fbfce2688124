import Spellbook.Eval
import Spellbook.Report.Render

/-! Running source texts. A session keeps what one text binds for the next. -/
namespace Spellbook

inductive Outcome where
  | value (v : Value)
  /-- The text has errors, and nothing was run. -/
  | rejected (diagnostics : List Diagnostic)
  | unreadable (path : Path) (error : ReadError)
  | failed (failure : Failure)
  | unfinished

namespace Outcome

def unreadableMessage (path : Path) (error : ReadError) : String :=
  "could not read " ++ path.text ++ ": " ++ error.message

def message : Outcome → String
  | .value _ => ""
  | .rejected diagnostics => Text.joined "\n" (diagnostics.map Diagnostic.message)
  | .unreadable path error => unreadableMessage path error
  | .failed failure => failure.text
  | .unfinished => ""

end Outcome

def Store.initial : Store :=
  { Store.empty with
    scopes := Builtin.all.foldl (fun f b => f.define Forest.outermost b.name (.builtin b))
      Store.empty.scopes }

def Machine.initial (file : Option String) : Machine :=
  ⟨.initial, Forest.outermost, [], none, file, [], ""⟩

/-- No run takes more nested steps or turns of a loop than this. -/
def fuelLimit : Nat := Nat.pow 10 18

structure Session where
  world : World
  machine : Machine
  scopes : Bindings (Ref .scope)

namespace Session

def start (w : World) (file : Option String) : Session := ⟨w, .initial file, []⟩

def setFile (s : Session) (file : String) : Session :=
  { s with machine := { s.machine with file := some file } }

/-- The scope with a name, which is made inside the outermost one when it is first asked for. -/
def scopeNamed (s : Session) (name : String) : Ref .scope × Session :=
  match s.scopes.get? name with
  | some r => (r, s)
  | none =>
    let (r, scopes) := s.machine.store.scopes.push Forest.outermost
    let store := { s.machine.store with scopes := scopes }
    (r, { s with machine := { s.machine with store := store }, scopes := s.scopes.set name r })

/-- Runs a program in a scope. The output starts out empty. -/
def run (s : Session) (p : Program) (scope : Ref .scope) : Outcome × Session :=
  let machine := { s.machine with output := "" }
  match runProgram s.world fuelLimit p scope machine with
  | .ok v m => (.value v, { s with machine := m })
  | .error (.raised r) m => (.failed (m.store.failure r), { s with machine := m })
  | .error .outOfFuel m => (.unfinished, { s with machine := m })

def runText (s : Session) (source : String) (scope : Ref .scope) : Outcome × Session :=
  let parsed := parse source
  match parsed.diagnostics with
  | [] => s.run parsed.program scope
  | diagnostics => (.rejected diagnostics, { s with machine := { s.machine with output := "" } })

/-- The bindings of a scope in the order of their names, but for builtins. -/
def bindings (s : Session) (scope : Ref .scope) : List (String × Value) :=
  (s.machine.store.scopes.entries scope).filter fun (_, v) =>
    match v with
    | .builtin _ => false
    | _ => true

end Session

def run (w : World) (source : String) : Outcome × Session :=
  (Session.start w none).runText source Forest.outermost

def runFile (w : World) (path : Path) : Outcome × Session :=
  let session := Session.start w (some path.text)
  match w.files.read path with
  | .error e => (.unreadable path e, session)
  | .ok source => session.runText source Forest.outermost

end Spellbook
