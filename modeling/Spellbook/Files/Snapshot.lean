import Spellbook.Import
import Spellbook.Token.Lexer

/-! The part of a file system that a program can reach through its imports. -/
namespace Spellbook

structure Snapshot where
  places : List (Path × Path)
  texts : List (Path × Except ReadError String)

namespace Snapshot

def empty : Snapshot := ⟨[], []⟩

def knows (s : Snapshot) (p : Path) : Bool := s.places.any (·.1 == p)

def add (s : Snapshot) (p canonical : Path) (text : Except ReadError String) : Snapshot :=
  ⟨(p, canonical) :: s.places, (p, text) :: (canonical, text) :: s.texts⟩

def files (s : Snapshot) : Files where
  canonical p := ((s.places.find? (·.1 == p)).map (·.2)).getD p
  read p := ((s.texts.find? (·.1 == p)).map (·.2)).getD (.error .notFound)

end Snapshot

/-- The texts that stand behind the word `import`. An import can name nothing else. -/
def importsIn (source : String) : List String :=
  let tokens := tokensOf source
  (tokens.zip tokens.tail).filterMap fun (word, name) =>
    match word.kind, name.literal with
    | .keyword .import_, some (.str text) => some text
    | _, _ => none

end Spellbook
