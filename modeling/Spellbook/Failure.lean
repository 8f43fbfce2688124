import Spellbook.Position
import Spellbook.Store.Ref

/-! What can be raised and caught: plain messages, failures of the evaluator with the place and
the calls they come from, errors of the script's own, and reports made for a reader. -/
namespace Spellbook

/-- A place in a file, or in a text without a name. Line 0 means that the place is unknown. -/
structure Location where
  file : Option String
  line : Nat
  col : Nat
deriving DecidableEq, Repr

namespace Location

def unknown : Location := ⟨none, 0, 0⟩

def isKnown (l : Location) : Bool := 0 < l.line

def text (l : Location) : String :=
  let place := toString l.line ++ ":" ++ toString l.col
  match l.file with
  | some file => file ++ ":" ++ place
  | none => "line " ++ place

end Location

/-- A call under way: what was called, and where. -/
structure Frame where
  callee : String
  location : Location
deriving DecidableEq, Repr

def Frame.text (f : Frame) : String := "[" ++ f.location.text ++ "] in " ++ f.callee

inductive Severity where
  | error | note | help
deriving DecidableEq, Repr

def Severity.text : Severity → String
  | .error => "error"
  | .note => "note"
  | .help => "help"

inductive Category where
  | syntactic | type | runtime | semantic | loading | io | custom
deriving DecidableEq, Repr

def Category.code : Category → String
  | .syntactic => "SYNTAX_ERROR"
  | .type => "TYPE_ERROR"
  | .runtime => "RUNTIME_ERROR"
  | .semantic => "SEMANTIC_ERROR"
  | .loading => "IMPORT_ERROR"
  | .io => "IO_ERROR"
  | .custom => "CUSTOM_ERROR"

/-- A stretch of source text, with what there is to say about it. -/
structure Span where
  start : Location
  stop : Location
  label : Option String
deriving DecidableEq, Repr

namespace Span

def point (l : Location) : Span := ⟨l, { l with col := l.col + 1 }, none⟩

/-- How many columns are marked. A span over several lines is marked at its start only. -/
def width (s : Span) : Nat :=
  if s.stop.line = s.start.line ∧ s.start.col < s.stop.col then s.stop.col - s.start.col else 1

end Span

structure Fix where
  description : String
  replacement : Option String
deriving DecidableEq, Repr

structure Suggestion where
  message : String
  fixes : List Fix
deriving DecidableEq, Repr

/-- An error of the script's own, raised from a string, an error value or an object. -/
structure Custom where
  name : String
  message : String
  /-- The object that was raised. -/
  object : Option (Ref .object)
  location : Location
  stack : List Frame
deriving DecidableEq, Repr

mutual

inductive Failure where
  | plain (message : String)
  | traced (t : Traced)
  | custom (c : Custom)
  | reported (r : Report)

structure Traced where
  name : String
  message : String
  location : Location
  cause : Option Failure
  /-- The calls under way, the innermost first. -/
  stack : List Frame
  details : List (String × String)

structure Report where
  category : Category
  title : String
  message : String
  severity : Severity
  primary : Option Span
  labels : List Span
  suggestions : List Suggestion
  notes : List String
  related : List Report
  cause : Option Failure
  stack : List Frame
  /-- The text the spans point into, if it is not the text the report is shown with. -/
  source : Option String

end

namespace Failure

def name : Failure → String
  | .plain _ => "Error"
  | .traced t => t.name
  | .custom c => c.name
  | .reported r => r.title

def message : Failure → String
  | .plain m => m
  | .traced t => t.message
  | .custom c => c.message
  | .reported r => r.message

def location? : Failure → Option Location
  | .plain _ => none
  | .traced t => if t.location.isKnown then some t.location else none
  | .custom c => if c.location.isKnown then some c.location else none
  | .reported r => r.primary.map (·.start)

def stack : Failure → List Frame
  | .plain _ => []
  | .traced t => t.stack
  | .custom c => c.stack
  | .reported r => r.stack

def cause? : Failure → Option Failure
  | .traced t => t.cause
  | .reported r => r.cause
  | _ => none

def object? : Failure → Option (Ref .object)
  | .custom c => c.object
  | _ => none

def text (f : Failure) : String :=
  let said := f.name ++ ": " ++ f.message
  match f.location? with
  | some l => "[" ++ l.text ++ "] " ++ said
  | none => said

end Failure

mutual

def Failure.chain (f : Failure) : List Failure :=
  f :: match f with
    | .plain _ => []
    | .custom _ => []
    | .traced t => Traced.causes t
    | .reported r => Report.causes r

def Traced.causes : Traced → List Failure
  | ⟨_, _, _, cause, _, _⟩ => Failure.causeChain cause

def Report.causes : Report → List Failure
  | ⟨_, _, _, _, _, _, _, _, _, cause, _, _⟩ => Failure.causeChain cause

def Failure.causeChain : Option Failure → List Failure
  | none => []
  | some f => f.chain

end

end Spellbook
