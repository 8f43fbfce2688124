/-! How many arguments a call may pass. -/
namespace Spellbook

inductive Arity where
  | exactly (n : Nat)
  | between (least most : Nat)
  | atMost (n : Nat)
  | any
deriving DecidableEq, Repr

namespace Arity

def accepts : Arity → Nat → Bool
  | .exactly n, count => count == n
  | .between least most, count => least ≤ count && count ≤ most
  | .atMost n, count => count ≤ n
  | .any, _ => true

def text : Arity → String
  | .exactly n => toString n
  | .between least most => toString least ++ "..=" ++ toString most
  | .atMost n => "<=" ++ toString n
  | .any => "*"

end Arity

end Spellbook
