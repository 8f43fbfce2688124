import Spellbook.Report

/-! Reports as text, with the lines of the source they point at. -/
namespace Spellbook

structure Shown where
  file : Option String
  text : String

namespace Report

def ln (s : String) : String := s ++ "\n"

def address (l : Location) : String :=
  l.file.getD "<input>" ++ ":" ++ toString l.line ++ ":" ++ toString l.col

/-- The line a span starts in, and under it a mark for each of its columns. Nothing if the text has
no such line. -/
def excerpt (source : String) (span : Span) (mark : Char) : String :=
  if span.start.line = 0 then ""
  else
    match (Text.lines source)[span.start.line - 1]? with
    | none => ""
    | some line =>
      let number := toString span.start.line
      let width := number.length + 1
      let margin := Text.padLeft width ""
      let under := Text.repeated (span.start.col - 1) ' ' ++ Text.repeated span.width mark
      let said := match span.label with
        | some label => " " ++ label
        | none => ""
      ln (margin ++ " |") ++
        ln (Text.padLeft width number ++ " | " ++ line) ++
        ln (margin ++ " | " ++ under ++ said)

/-- The text a report's spans point into: its own, or the shown one if that is the same file. -/
def sourceFor (own : Option String) (shown : Option Shown) (primary : Span) : Option String :=
  match own, shown with
  | some text, _ => some text
  | none, some s => if s.file = primary.start.file then some s.text else none
  | none, none => none

/-- The excerpts of the primary span and of the labels in the same file. -/
def excerpts (text : String) (primary : Span) (labels : List Span) : String :=
  let beside := labels.filter fun l => l.start.file = primary.start.file
  excerpt text primary '^' ++ String.join (beside.map fun l => excerpt text l '-')

def renderFix (f : Fix) : String :=
  match f.replacement with
  | some code => ln ("       fix: " ++ f.description ++ " `" ++ code ++ "`")
  | none => ln ("       fix: " ++ f.description)

def renderSuggestion (s : Suggestion) : String :=
  ln ("   = " ++ Severity.help.text ++ ": " ++ s.message) ++ String.join (s.fixes.map renderFix)

def renderStack (stack : List Frame) : String :=
  if stack.isEmpty then ""
  else
    ln "stack backtrace:" ++
      String.join ((stack.zipIdx).map fun (frame, i) =>
        ln ("  " ++ Text.padLeft 2 (toString i) ++ ": " ++ frame.text))

mutual

def renderWith (shown : Option Shown) : Report → String
  | ⟨category, title, message, severity, primary, labels, suggestions, notes, related, cause,
      stack, source⟩ =>
    ln (severity.text ++ "[" ++ category.code ++ "]: " ++ title) ++
      (match primary with
        | none => ""
        | some p =>
          ln ("  --> " ++ address p.start) ++
            (match sourceFor source shown p with
              | some text => excerpts text p labels
              | none => "")) ++
      ln ("   = " ++ message) ++
      String.join (suggestions.map renderSuggestion) ++
      String.join (notes.map fun n => ln ("   = " ++ Severity.note.text ++ ": " ++ n)) ++
      renderStack stack ++
      String.join ((Failure.causeChain cause).map fun f => ln ("caused by: " ++ f.text)) ++
      renderRelated shown related

def renderRelated (shown : Option Shown) : List Report → String
  | [] => ""
  | r :: more => "\n" ++ renderWith shown r ++ renderRelated shown more

end

/-- A report as text. `source` is the text of the file that the report points at. -/
def render (r : Report) (source : Option String) : String :=
  let file := r.primary.bind (·.start.file)
  renderWith (source.map fun text => ⟨file, text⟩) r

end Report

end Spellbook
