import Spellbook.Files

/-! Directories and files held in memory. -/
namespace Spellbook

inductive Node where
  | directory
  | file (content : ByteArray)

/-- The places in use, each given by the names that lead to it from the root, and the directory
where paths that are not absolute start. -/
structure Tree where
  home : List String
  nodes : List (List String × Node)

namespace Tree

def ancestors (place : List String) : List (List String) :=
  (List.range place.length).map place.take

/-- The directories that a tree has without being told. -/
def implied (t : Tree) : List (List String) :=
  t.home :: ancestors t.home ++ t.nodes.flatMap fun (place, _) => ancestors place

def node? (t : Tree) (place : List String) : Option Node :=
  match t.nodes.find? fun n => n.1 == place with
  | some (_, node) => some node
  | none => if place = [] || t.implied.contains place then some .directory else none

def nameLimit : Nat := 255

def pathLimit : Nat := 4096

def directory (t : Tree) (place : List String) : Except ReadError (List String) :=
  match t.node? place with
  | some .directory => .ok place
  | some (.file _) => .error .notDirectory
  | none => .error .notFound

/-- One step from a place, which has to be a directory. -/
def step (t : Tree) (place : List String) (part : List Char) : Except ReadError (List String) := do
  let place ← t.directory place
  match part with
  | [] | ['.'] => return place
  | ['.', '.'] => return place.dropLast
  | cs =>
    let name := String.ofList cs
    if nameLimit < name.utf8ByteSize then throw .nameTooLong
    else
      let next := place ++ [name]
      match t.node? next with
      | some _ => return next
      | none => throw .notFound

def find (t : Tree) (p : Path) : Except ReadError (List String) :=
  if p.text.toList.contains '\x00' then .error .badName
  else if p.text = "" then .error .notFound
  else if pathLimit ≤ p.text.utf8ByteSize then .error .nameTooLong
  else (Path.pieces p.text.toList).foldlM t.step (if p.isAbsolute then [] else t.home)

def canonical (t : Tree) (p : Path) : Path :=
  match t.find p with
  | .ok place => Path.ofNames place
  | .error _ => p

def read (t : Tree) (p : Path) : Except ReadError String := do
  let place ← t.find p
  match t.node? place with
  | some (.file content) =>
    match String.fromUTF8? content with
    | some text => return text
    | none => throw .notText
  | some .directory => throw .isDirectory
  | none => throw .notFound

def files (t : Tree) : Files := ⟨t.canonical, t.read⟩

end Tree

end Spellbook
