/-! Paths of files, as they are written. -/
namespace Spellbook

structure Path where
  text : String
deriving DecidableEq, Repr

namespace Path

inductive Part where
  | root
  /-- The directory the path starts from, written out. -/
  | here
  | up
  | name (s : String)
deriving DecidableEq, Repr

def isAbsolute (p : Path) : Bool := p.text.toList.head? == some '/'

def pieces : List Char → List (List Char)
  | [] => [[]]
  | c :: rest =>
    match pieces rest with
    | [] => [[c]]
    | piece :: more => if c = '/' then [] :: piece :: more else (c :: piece) :: more

def Part.ofPiece? : List Char → Option Part
  | [] | ['.'] => none
  | ['.', '.'] => some .up
  | cs => some (.name (String.ofList cs))

/-- The steps of a path. Repeated slashes and dots make no difference, a leading dot apart. -/
def parts (p : Path) : List Part :=
  let all := pieces p.text.toList
  let start := if p.isAbsolute then [.root] else if all.head? = some ['.'] then [.here] else []
  start ++ all.filterMap Part.ofPiece?

def same (p q : Path) : Bool := p.parts == q.parts

def isAmong (p : Path) (paths : List Path) : Bool := paths.any p.same

/-- The path `p` seen from the directory `base`. An absolute path stays as it is. -/
def join (base p : Path) : Path :=
  if p.isAbsolute then p
  else if base.text = "" || base.text.toList.getLast? = some '/' then ⟨base.text ++ p.text⟩
  else ⟨base.text ++ "/" ++ p.text⟩

def ofNames : List String → Path
  | [] => ⟨"/"⟩
  | names => ⟨String.join (names.map ("/" ++ ·))⟩

end Path

end Spellbook
