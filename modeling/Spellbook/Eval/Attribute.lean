import Spellbook.Machine
import Spellbook.Store.Lineage

/-! Reading and writing attributes. -/
namespace Spellbook.Eval

variable (w : World)

/-- Whether a method may be reached while a method of `running`, or of no grimoire, is running. A
name with two leading underscores is private to the grimoire that declares it, one with a single
underscore is for its line of inheritance. -/
def accessFault? (s : Store) (running : Option (Ref .grimoire)) (name : String)
    (owner : Ref .grimoire) : Option Fault :=
  let ownerName := (s.grimoire owner).name
  match name.toList with
  | '_' :: '_' :: _ => if running = some owner then none else some (.privateMethod name ownerName)
  | '_' :: _ =>
    if running.any fun g => s.inherits g owner || s.inherits owner g then none
    else some (.protectedMethod name ownerName)
  | _ => none

def checkAccess (id : Ident) (owner : Ref .grimoire) : Eval Unit := do
  match ← look fun m => accessFault? m.store m.owner id.name owner with
  | some fault => fail w id.pos fault
  | none => return

def bound (receiver : Value) (id : Ident) (found : SpellDecl × Ref .grimoire) : Eval Value := do
  checkAccess w id found.2
  create fun s => s.newMethod ⟨receiver, found.1, found.2⟩

/-- An attribute of an object. Fields come before methods. -/
def member (r : Ref .object) (id : Ident) : Eval Value := do
  match ← view fun s => s.field? r id.name with
  | some v => return v
  | none =>
    let grimoire ← view fun s => (s.object r).grimoire
    match ← view fun s => s.findMethod? grimoire id.name with
    | some found => bound w (.object r) id found
    | none =>
      let name ← view fun s => (s.grimoire grimoire).name
      fail w id.pos (.noAttribute id.name (name ++ " instance"))

/-- A spell reached through the grimoire itself has no receiver. -/
def unbound (r : Ref .grimoire) (id : Ident) : Eval Value := do
  match ← view fun s => s.findMethod? r id.name with
  | some (decl, owner) =>
    checkAccess w id owner
    create fun s => s.newSpell ⟨decl, (s.grimoire owner).scope⟩
  | none =>
    let name ← view fun s => (s.grimoire r).name
    fail w id.pos (.noAttribute id.name ("grimoire " ++ name))

/-- The field that holds a value inside the object that stands in for it. -/
def wrappedField : Value → String
  | .array _ => "elements"
  | _ => "value"

/-- The object that stands in for a value without attributes, if a grimoire with the name of its
type is in scope. -/
def wrapped? (v : Value) : Eval (Option (Ref .object)) := do
  let kind ← view fun s => s.kind v
  match ← get? kind with
  | some (.grimoire g) =>
    let r ← create fun s => s.newObject ⟨g, [(wrappedField v, v)]⟩
    return some r
  | _ => return none

/-- An attribute of a value that has some only if an object can stand in for it. -/
def wrappedMember (v : Value) (id : Ident) : Eval Value := do
  match ← wrapped? v with
  | some r => member w r id
  | none => fail w id.pos (.noAttribute id.name v.typeName)

/-- An attribute of an error: name, message, or what the raised object has. -/
def errorMember (v : Value) (r : Ref .failure) (id : Ident) : Eval Value := do
  let f ← view fun s => s.failure r
  match id.name with
  | "message" => return .str f.message
  | "name" | "type" => return .str f.name
  | _ =>
    match f.object? with
    | some o => member w o id
    | none => fail w id.pos (.noAttribute id.name v.typeName)

/-- A name bound by a module itself. -/
def spaceMember (r : Ref .space) (id : Ident) : Eval Value := do
  match ← view fun s => s.scopes.getLocal? (s.space r).scope id.name with
  | some v => return v
  | none =>
    let name ← view fun s => (s.space r).name
    fail w id.pos (.noAttribute id.name ("namespace " ++ name))

def attr (v : Value) (id : Ident) : Eval Value :=
  match v with
  | .object r => member w r id
  | .grimoire r => unbound w r id
  | .int _ | .float _ | .bool _ | .str _ | .array _ => wrappedMember w v id
  | .space r => spaceMember w r id
  | .error r | .caught r => errorMember w v r id
  | _ => fail w id.pos (.noAttribute id.name v.typeName)

/-- Writes an attribute. Only objects have fields. -/
def setAttr (object : Value) (id : Ident) (v : Value) : Eval Unit :=
  match object with
  | .object r => change fun s => s.setField r id.name v
  | _ => fail w id.pos (.notAssignable id.name object.typeName)

def parentMethod (pos : Pos) (id : Ident) : Eval Value := do
  match ← get? "super", ← get? "self" with
  | some (.grimoire parent), some receiver =>
    match ← view fun s => s.findMethod? parent id.name with
    | some found => bound w receiver id found
    | none =>
      let name ← view fun s => (s.grimoire parent).name
      fail w id.pos (.noMethod id.name name)
  | _, _ => fail w pos .noParent

end Spellbook.Eval
