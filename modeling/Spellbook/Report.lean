import Spellbook.Failure
import Spellbook.Program.Diagnostic
import Spellbook.Text.Lines

/-! Making reports: for diagnostics, and for failures of any kind. -/
namespace Spellbook

structure Remedy where
  patterns : List String
  help : String
  fixes : List Fix

def Remedy.all : List Remedy :=
  [⟨["identifier not found", "undefined variable", "undefined function"],
      "the name is not defined in this scope",
      [⟨"check the spelling of the name", none⟩,
        ⟨"assign it before it is used", some "name = value"⟩,
        ⟨"define the spell before calling it", some "spell name(): ..."⟩]⟩,
    ⟨["wrong number of arguments"],
      "the call passes more arguments than the spell declares",
      [⟨"match the parameter list of the spell", none⟩,
        ⟨"add parameters with defaults", some "spell f(a, b = 0)"⟩]⟩,
    ⟨["invalid assignment"],
      "only variables, fields and index expressions can be assigned to",
      [⟨"assign to a name instead", some "x = value"⟩]⟩,
    ⟨["division by zero", "modulo by zero"],
      "the right operand evaluated to zero",
      [⟨"check the divisor first", some "if d != 0: ..."⟩]⟩,
    ⟨["type mismatch"],
      "the operands have types this operator cannot combine",
      [⟨"convert one side explicitly", some "str(x), int(x) or float(x)"⟩]⟩,
    ⟨["index out of bounds"],
      "the index is outside the valid range",
      [⟨"check the length first", some "if i < len(xs): ..."⟩]⟩,
    ⟨["to be :"],
      "a block statement needs a colon before its body",
      [⟨"add ':' at the end of the statement header", none⟩]⟩,
    ⟨["indent"],
      "indentation does not line up with an enclosing block",
      [⟨"indent every line of a block by the same amount", none⟩,
        ⟨"avoid mixing tabs and spaces", none⟩]⟩,
    ⟨["expected next token", "unexpected", "no prefix parse function"],
      "the parser found a token it did not expect here",
      [⟨"look for missing or extra punctuation around this position", none⟩]⟩]

def suggestionsFor (message : String) : List Suggestion :=
  match Remedy.all.find? fun r => r.patterns.any (Text.contains message) with
  | some r => [⟨r.help, r.fixes⟩]
  | none => []

namespace Report

def plain (category : Category) (title message : String) : Report :=
  ⟨category, title, message, .error, none, [], [], [], [], none, [], none⟩

def pointAt (r : Report) (l : Location) : Report :=
  if l.isKnown then { r with primary := some (.point l) } else r

def headline (r : Report) : String :=
  r.severity.text ++ "[" ++ r.category.code ++ "]: " ++ r.title ++ ": " ++ r.message

def categoryOf (f : Failure) : Category :=
  match f with
  | .custom _ => .custom
  | _ =>
    if f.name = "ImportError" then .loading
    else if f.name = "NameError" || Text.contains f.message "undefined" then .semantic
    else if f.name = "TypeError" || Text.startsWith f.message "type mismatch" then .type
    else .runtime

/-- What is known of a failure beside its message. -/
def notesOf : Failure → List String
  | .traced t => t.details.map fun (key, value) => key ++ ": " ++ value
  | _ => []

/-- The report of a failure. One that is a report already stays as it is. -/
def ofFailure (f : Failure) : Report :=
  match f with
  | .reported r => r
  | _ =>
    let base := plain (categoryOf f) f.name f.message
    let base := match f.location? with
      | some l => base.pointAt l
      | none => base
    { base with
      suggestions := suggestionsFor f.message
      stack := f.stack
      cause := f.cause?
      notes := notesOf f }

def ofDiagnostic (file : Option String) (d : Diagnostic) : Report :=
  let message := d.complaint.message
  { (plain .syntactic "SyntaxError" message).pointAt ⟨file, d.pos.line, d.pos.col⟩ with
    suggestions := suggestionsFor message }

end Report

end Spellbook
