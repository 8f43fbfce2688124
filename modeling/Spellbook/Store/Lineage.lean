import Spellbook.Store

/-! Inheritance. A grimoire is younger than its parent, so every line of ancestors ends. -/
namespace Spellbook.Store

def lineage (s : Store) (r : Ref .grimoire) : List (Ref .grimoire) :=
  r :: match (s.grimoire r).parent with
    | some p => if p.index < r.index then s.lineage p else []
    | none => []
termination_by r.index

def ownMethod? (s : Store) (r : Ref .grimoire) (name : String) : Option SpellDecl :=
  match (s.grimoire r).methods.get? name with
  | some decl => some decl
  | none => if name = "init" then (s.grimoire r).init else none

/-- The nearest declaration of a method along the lineage, and who makes it. -/
def findMethod? (s : Store) (r : Ref .grimoire) (name : String) :
    Option (SpellDecl × Ref .grimoire) :=
  (s.lineage r).findSome? fun g => (s.ownMethod? g name).map (·, g)

/-- The nearest `init` along the lineage, and who declares it. -/
def findInit? (s : Store) (r : Ref .grimoire) : Option (SpellDecl × Ref .grimoire) :=
  (s.lineage r).findSome? fun g => (s.grimoire g).init.map (·, g)

/-- Whether `r` is `ancestor` or inherits from it. -/
def inherits (s : Store) (r ancestor : Ref .grimoire) : Bool := (s.lineage r).contains ancestor

/-- The first method by name, if any, that is arcane all along the lineage. -/
def unimplemented? (s : Store) (r : Ref .grimoire) : Option String :=
  let names := (s.lineage r).flatMap fun g => (s.grimoire g).methods.map (·.1)
  (names.mergeSort (· ≤ ·)).find? fun name =>
    match s.findMethod? r name with
    | some (decl, _) => decl.arcane
    | none => false

/-- The name of a value's type as scripts spell it: for an object that of its grimoire. -/
def kind (s : Store) : Value → String
  | .int _ => "Integer"
  | .float _ => "Float"
  | .bool _ => "Boolean"
  | .none => "None"
  | .str _ => "String"
  | .array _ => "Array"
  | .tuple _ => "Tuple"
  | .map _ => "Map"
  | .spell _ | .builtin _ | .method _ => "Function"
  | .grimoire _ => "Grimoire"
  | .object r => (s.grimoire (s.object r).grimoire).name
  | .space _ => "Namespace"
  | .error _ | .caught _ => "Error"

inductive Hint where
  | anything
  | number
  | named (kind : String)
deriving DecidableEq, Repr

/-- The meaning of a hint. The hints for built-in types are recognised in any case. -/
def Hint.ofName (hint : String) : Hint :=
  match String.ofList (hint.toList.map Char.toLower) with
  | "int" | "integer" | "float" => .number
  | "str" | "string" => .named "String"
  | "bool" | "boolean" => .named "Boolean"
  | "list" | "array" => .named "Array"
  | "map" | "dict" | "hash" => .named "Map"
  | "tuple" => .named "Tuple"
  | "function" | "spell" => .named "Function"
  | "any" | "object" => .anything
  | _ => .named hint

/-- Whether a value may be bound to a parameter with this hint. `None` always may, either kind of
number does for both, and an object does for its grimoire and all ancestors. -/
def satisfies (s : Store) (v : Value) (hint : String) : Bool :=
  match Hint.ofName hint, v with
  | .anything, _ => true
  | _, .none => true
  | .number, .int _ => true
  | .number, .float _ => true
  | .number, _ => false
  | .named name, .object r =>
    (s.lineage (s.object r).grimoire).any fun g => (s.grimoire g).name == name
  | .named name, v => s.kind v == name

def arity? (s : Store) : Value → Option Arity
  | .spell r => (s.spell? r).map fun f => .atMost f.decl.params.length
  | .builtin b => some b.arity
  | .grimoire r =>
    match s.findInit? r with
    | some (init, _) => some (.atMost init.params.length)
    | none => some (.exactly 0)
  | .method r => (s.method? r).map fun m => .atMost m.decl.params.length
  | _ => none

end Spellbook.Store
