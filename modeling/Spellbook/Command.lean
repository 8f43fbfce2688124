import Spellbook.Session
import Spellbook.Settings

/-! The command line. -/
namespace Spellbook

inductive Command where
  | help
  | misuse
  /-- Runs a file, or what comes on standard input. -/
  | run (file : Option String) (debug : Bool)
deriving DecidableEq, Repr

namespace Command

def usage : String := "usage: carrion [--debug] [file.crl]"

/-- Reads arguments from left to right, given what those before have set. -/
def ofArgsAfter (file : Option String) (debug : Bool) : List String → Command
  | [] => .run file debug
  | "--debug" :: rest => ofArgsAfter file true rest
  | "-h" :: _ => .help
  | "--help" :: _ => .help
  | arg :: rest =>
    match file with
    | none => ofArgsAfter (some arg) debug rest
    | some _ => .misuse

def ofArgs (args : List String) : Command := ofArgsAfter none false args

structure Result where
  code : Nat
  stdout : String
  stderr : String
deriving DecidableEq, Repr

def worldOf (settings : Settings) (files : Files) (directory : Path) : World where
  files := files
  base := (settings.importDir.map Path.mk).getD directory
  maxDepth := settings.maxDepth
  traceLimit := settings.traceLimit

def runSource (w : World) (file : Option String) (source : String) : Result :=
  let (outcome, session) := (Session.start w file).runText source Forest.outermost
  let output := session.machine.output
  match outcome with
  | .value _ => ⟨0, output, ""⟩
  | .rejected diagnostics =>
    let reports := diagnostics.map fun d => (Report.ofDiagnostic file d).render (some source)
    ⟨1, output, String.join reports⟩
  | .failed failure => ⟨1, output, (Report.ofFailure failure).render (some source)⟩
  | .unreadable .. | .unfinished => ⟨1, output, ""⟩

/-- The text a command runs, and the name it goes by if it cannot be read. -/
def sourceOf (w : World) (input : Except ReadError String) :
    Option String → Path × Except ReadError String
  | none => (⟨"<stdin>"⟩, input)
  | some name => (⟨name⟩, w.files.read ⟨name⟩)

def runFrom (w : World) (input : Except ReadError String) (file : Option String) : Result :=
  match sourceOf w input file with
  | (_, .ok source) => runSource w file source
  | (path, .error e) =>
    let report := Report.plain .io "IOError" (Outcome.unreadableMessage path e)
    ⟨1, "", report.render none⟩

def perform (w : World) (input : Except ReadError String) : Command → Result
  | .help => ⟨0, usage ++ "\n", ""⟩
  | .misuse => ⟨2, "", usage ++ "\n"⟩
  | .run file _ => runFrom w input file

end Command

end Spellbook
