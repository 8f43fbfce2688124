import Spellbook.Store

/-! Equality of values. Numbers compare by value across kinds and containers by content; everything
with an identity equals only itself. -/
namespace Spellbook.Store

def toFloat (n : Int64) : Float := Float.ofInt n.toInt

def equalAt (s : Store) : Nat → Value → Value → Bool
  | 0, _, _ => false
  | depth + 1, a, b =>
    let all (xs ys : Array Value) : Bool :=
      xs.size == ys.size && (xs.toList.zip ys.toList).all fun (x, y) => s.equalAt depth x y
    match a, b with
    | .none, .none => true
    | .bool x, .bool y => x == y
    | .int x, .int y => x == y
    | .float x, .float y => x == y
    | .int x, .float y => toFloat x == y
    | .float x, .int y => x == toFloat y
    | .str x, .str y => x == y
    | .array x, .array y => x == y || all (s.array x) (s.array y)
    | .tuple x, .tuple y => all (s.tuple x) (s.tuple y)
    | .map x, .map y =>
      x == y ||
        ((s.map x).length == (s.map y).length &&
          (s.map x).all fun e =>
            match (s.map y).find? e.key with
            | some other => s.equalAt depth other.value e.value
            | none => false)
    | .spell x, .spell y => x == y
    | .builtin x, .builtin y => x == y
    | .grimoire x, .grimoire y => x == y
    | .object x, .object y => x == y
    | .method x, .method y => x == y
    | .space x, .space y => x == y
    | .error x, .error y => x == y
    | .caught x, .caught y => x == y
    | _, _ => false

def equal (s : Store) (a b : Value) : Bool := s.equalAt s.depthBound a b

end Spellbook.Store
