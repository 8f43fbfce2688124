import Spellbook.Number.Reader
import Spellbook.Text.Blank

/-! Settings, and how environment variables give them. -/
namespace Spellbook

structure Settings where
  /-- The directory that imports start from, or none for the working directory. -/
  importDir : Option String
  /-- How many calls may be under way at a time. -/
  maxDepth : Nat
  /-- How many calls, the innermost first, a failure lists. -/
  traceLimit : Nat
  debug : Bool
deriving DecidableEq, Repr

namespace Settings

def default : Settings := ⟨none, 200, 20, false⟩

/-- The settings that variables give. What is not set or cannot be read keeps its default. -/
def ofVariables (value? : String → Option String) : Settings where
  importDir := (value? "CARRION_PATH").filter (· != "")
  maxDepth :=
    ((value? "CARRION_MAX_DEPTH").bind fun text => Number.readCount? (Text.trim text.toList)).getD
      default.maxDepth
  traceLimit := default.traceLimit
  debug := (value? "CARRION_DEBUG").any (["1", "true", "yes", "on"].contains ·)

end Settings

end Spellbook
