/-! Addresses of what values refer to. -/
namespace Spellbook

inductive Cell where
  | scope | array | tuple | map | spell | grimoire | object | method | space | failure
deriving DecidableEq, Repr

/-- An address in the store's table for `κ`. Two references are the same thing exactly when they
are equal. -/
structure Ref (κ : Cell) where
  index : Nat
deriving DecidableEq, Repr

end Spellbook
