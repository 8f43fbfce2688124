import Spellbook.Program.Parser.Stmt

/-! Reading a program. Diagnostics never end the reading: a statement that fails is left out, and
the statements around it are kept. -/
namespace Spellbook

/-- A program and what is wrong with its text. It can be run only if nothing is. -/
structure Parsed where
  program : Program
  diagnostics : List Diagnostic

namespace Parser

/-- As much nesting as a text of this length can have, with room to spare. -/
def budget (length : Nat) : Nat := 4 * (length + 4)

/-- The lexical errors at places where nothing has been reported. Their tokens were skipped while
recovering from an earlier failure. -/
def unreported (found : List Diagnostic) (errors : List LexError) : List Diagnostic :=
  (errors.filter fun e => !found.any (·.pos == e.pos)).map
    fun e => ⟨e.pos, .illegal e.flaw.reason⟩

def collect (found : List Diagnostic) (errors : List LexError) : List Diagnostic :=
  (found ++ unreported found errors).mergeSort fun a b => a.pos.le b.pos

end Parser

/-- The program a text holds. The budget is enough for every text, and nothing else ends the reading
early. -/
def parse (source : String) : Parsed :=
  let state := Parser.State.start source
  match Parser.program (Parser.budget source.length) state with
  | .ok statements s => ⟨⟨statements⟩, Parser.collect s.found.reverse (lexErrorsOf source)⟩
  | .error _ s => ⟨⟨[]⟩, Parser.collect s.found.reverse (lexErrorsOf source)⟩

end Spellbook
