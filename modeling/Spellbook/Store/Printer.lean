import Spellbook.Number.Layout
import Spellbook.Store
import Spellbook.Text.Lines
import Spellbook.Text.Quoted

/-! Values as text. A string stands for itself, and in quotes inside a container. -/
namespace Spellbook.Store

def nested (text : Value → String) : Value → String
  | .str s => Text.quoted s
  | v => text v

def printAt (s : Store) : Nat → Value → String
  | 0, _ => "..."
  | depth + 1, v =>
    let inner := nested (s.printAt depth)
    let all (xs : Array Value) : String := Text.joined ", " (xs.toList.map inner)
    match v with
    | .none => "None"
    | .bool true => "True"
    | .bool false => "False"
    | .int n => toString n.toInt
    | .float x => Number.display x
    | .str text => text
    | .array r => "[" ++ all (s.array r) ++ "]"
    | .tuple r =>
      let xs := s.tuple r
      "(" ++ all xs ++ (if xs.size = 1 then "," else "") ++ ")"
    | .map r =>
      let entries := (s.map r).map fun e => inner e.name ++ ": " ++ inner e.value
      "\x7b" ++ Text.joined ", " entries ++ "\x7d"
    | .spell r =>
      "<spell " ++ ((s.spell? r).map (·.decl.name.name)).getD "" ++ ">"
    | .builtin b => "<builtin " ++ b.name ++ ">"
    | .grimoire r => "<grimoire " ++ (s.grimoire r).name ++ ">"
    | .object r => "<" ++ (s.grimoire (s.object r).grimoire).name ++ " instance>"
    | .method r =>
      match s.method? r with
      | some m => "<bound spell " ++ (s.grimoire m.owner).name ++ "." ++ m.decl.name.name ++ ">"
      | none => "<bound spell .>"
    | .space r => "<namespace " ++ (s.space r).name ++ ">"
    | .error r | .caught r => (s.failure r).name ++ ": " ++ (s.failure r).message

def print (s : Store) (v : Value) : String := s.printAt s.depthBound v

def describe (s : Store) : Value → String
  | .str text => "Str(" ++ Text.quoted text ++ ")"
  | v => v.typeName ++ "(" ++ s.print v ++ ")"

end Spellbook.Store
