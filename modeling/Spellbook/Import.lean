import Spellbook.Files

/-! What an import names. -/
namespace Spellbook

def sourceExtension : String := "crl"

structure Import where
  file : Path
  grimoire : Option String
deriving DecidableEq, Repr

namespace Import

/-- What stands before and behind the last `c`. -/
def splitLast? (c : Char) (cs : List Char) : Option (List Char × List Char) :=
  let behind := cs.reverse.takeWhile (· != c)
  match cs.reverse.dropWhile (· != c) with
  | [] => none
  | _ :: before => some (before.reverse, behind.reverse)

def splitDirectory (cs : List Char) : List Char × List Char :=
  match splitLast? '/' cs with
  | some (directory, last) => (directory ++ ['/'], last)
  | none => ([], cs)

/-- The name of a file without its extension, and the grimoire if what follows the dot is not the
extension of source files. -/
def splitName (last : List Char) : List Char × Option String :=
  match splitLast? '.' last with
  | some (stem, suffix) =>
    if stem = [] then (last, none)
    else if String.ofList suffix = sourceExtension then (stem, none)
    else (stem, some (String.ofList suffix))
  | none => (last, none)

/-- Reads the path of an import statement: `dir/shapes` and `dir/shapes.crl` name a file, and
`dir/shapes.Circle` a grimoire in it. -/
def ofText (text : String) : Import :=
  let (directory, last) := splitDirectory text.toList
  let (stem, grimoire) := splitName last
  ⟨⟨String.ofList directory ++ String.ofList stem ++ "." ++ sourceExtension⟩, grimoire⟩

/-- The path of the file, seen from the directory `base`. -/
def locate (i : Import) (files : Files) (base : Path) : Path := files.canonical (base.join i.file)

end Import

end Spellbook
