import Spellbook.Failure
import Spellbook.Key
import Spellbook.Program.Stmt
import Spellbook.Scope

/-! The store: everything that values refer to, one table for each kind. -/
namespace Spellbook

structure Spell where
  decl : SpellDecl
  scope : Ref .scope

structure Grimoire where
  name : String
  parent : Option (Ref .grimoire)
  init : Option SpellDecl
  methods : Bindings SpellDecl
  /-- The scope it was declared in, where free names of its methods are looked up. -/
  scope : Ref .scope
  arcane : Bool

structure Object where
  grimoire : Ref .grimoire
  fields : Bindings Value

/-- A method with its receiver and the grimoire that declares it. -/
structure Method where
  receiver : Value
  decl : SpellDecl
  owner : Ref .grimoire

structure Space where
  name : String
  scope : Ref .scope

/-- An entry of a map. The key keeps the value it was made from. -/
structure Entry where
  key : Key
  name : Value
  value : Value
deriving DecidableEq, Repr

/-- A map: entries in the order of their keys, each key once. -/
abbrev Table := List Entry

namespace Table

/-- Writes an entry, in place of the one with the same key if there is one. -/
def insert (t : Table) (e : Entry) : Table :=
  match t with
  | [] => [e]
  | x :: rest =>
    match e.key.compare x.key with
    | .lt => e :: x :: rest
    | .eq => e :: rest
    | .gt => x :: insert rest e

def find? (t : Table) (k : Key) : Option Entry := List.find? (fun e => e.key == k) t

/-- A map from pairs of keys and values, of which the last with a key counts. -/
def ofPairs (pairs : List (Value × Value)) : Except Fault Table :=
  pairs.foldlM (fun t (k, v) => do
    let key ← Key.ofValue k
    return Table.insert t ⟨key, k, v⟩) []

end Table

structure Store where
  scopes : Forest Value
  arrays : Array (Array Value)
  tuples : Array (Array Value)
  maps : Array Table
  spells : Array Spell
  grimoires : Array Grimoire
  objects : Array Object
  methods : Array Method
  spaces : Array Space
  failures : Array Failure

namespace Store

def empty : Store := ⟨.single, #[], #[], #[], #[], #[], #[], #[], #[], #[]⟩

def array (s : Store) (r : Ref .array) : Array Value := s.arrays.getD r.index #[]

def tuple (s : Store) (r : Ref .tuple) : Array Value := s.tuples.getD r.index #[]

def map (s : Store) (r : Ref .map) : Table := s.maps.getD r.index []

def spell? (s : Store) (r : Ref .spell) : Option Spell := s.spells[r.index]?

def grimoire (s : Store) (r : Ref .grimoire) : Grimoire :=
  s.grimoires.getD r.index ⟨"", none, none, [], Forest.outermost, false⟩

def object (s : Store) (r : Ref .object) : Object := s.objects.getD r.index ⟨⟨0⟩, []⟩

def method? (s : Store) (r : Ref .method) : Option Method := s.methods[r.index]?

def space (s : Store) (r : Ref .space) : Space := s.spaces.getD r.index ⟨"", Forest.outermost⟩

def failure (s : Store) (r : Ref .failure) : Failure := s.failures.getD r.index (.plain "")

def newArray (s : Store) (xs : Array Value) : Value × Store :=
  (.array ⟨s.arrays.size⟩, { s with arrays := s.arrays.push xs })

def newTuple (s : Store) (xs : Array Value) : Value × Store :=
  (.tuple ⟨s.tuples.size⟩, { s with tuples := s.tuples.push xs })

def newMap (s : Store) (t : Table) : Value × Store :=
  (.map ⟨s.maps.size⟩, { s with maps := s.maps.push t })

def newSpell (s : Store) (f : Spell) : Value × Store :=
  (.spell ⟨s.spells.size⟩, { s with spells := s.spells.push f })

def newGrimoire (s : Store) (g : Grimoire) : Value × Store :=
  (.grimoire ⟨s.grimoires.size⟩, { s with grimoires := s.grimoires.push g })

def newObject (s : Store) (o : Object) : Ref .object × Store :=
  (⟨s.objects.size⟩, { s with objects := s.objects.push o })

def newMethod (s : Store) (m : Method) : Value × Store :=
  (.method ⟨s.methods.size⟩, { s with methods := s.methods.push m })

def newSpace (s : Store) (n : Space) : Value × Store :=
  (.space ⟨s.spaces.size⟩, { s with spaces := s.spaces.push n })

def newFailure (s : Store) (f : Failure) : Ref .failure × Store :=
  (⟨s.failures.size⟩, { s with failures := s.failures.push f })

def setElement (s : Store) (r : Ref .array) (i : Nat) (v : Value) : Store :=
  { s with arrays := s.arrays.modify r.index (·.setIfInBounds i v) }

def setEntry (s : Store) (r : Ref .map) (e : Entry) : Store :=
  { s with maps := s.maps.modify r.index (Table.insert · e) }

def setField (s : Store) (r : Ref .object) (name : String) (v : Value) : Store :=
  { s with objects := s.objects.modify r.index fun o => { o with fields := o.fields.set name v } }

def field? (s : Store) (r : Ref .object) (name : String) : Option Value :=
  (s.object r).fields.get? name

/-- No value without cycles is nested more deeply than this. -/
def depthBound (s : Store) : Nat := s.arrays.size + s.tuples.size + s.maps.size + 1

/-- Whether a value counts as true. Numbers always do. -/
def truthy (s : Store) : Value → Bool
  | .none => false
  | .bool b => b
  | .str text => text != ""
  | .array r => !(s.array r).isEmpty
  | .tuple r => !(s.tuple r).isEmpty
  | .map r => !(s.map r).isEmpty
  | _ => true

/-- What a loop over a value goes through: elements, characters or keys. -/
def elements? (s : Store) : Value → Option (Array Value)
  | .array r => some (s.array r)
  | .tuple r => some (s.tuple r)
  | .str text => some ((text.toList.map fun c => .str (String.singleton c)).toArray)
  | .map r => some (((s.map r).map (·.name)).toArray)
  | _ => none

end Store

end Spellbook
