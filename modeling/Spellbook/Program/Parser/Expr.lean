import Spellbook.Program.Parser.Basic
import Spellbook.Text.Blank

/-! Expressions, by operator precedence. Every function here takes the parser for the operands as
an argument, and `exprAt` ties the knot. Its fuel bounds the nesting: each level takes at least
one token. -/
namespace Spellbook.Parser

/-- How tightly an operator binds, loosest first. -/
inductive Level where
  | lowest | or | and | equality | comparison | sum | product | exponent | unary | call | step
  | index
deriving DecidableEq, Repr

def Level.rank : Level → Nat
  | .lowest => 0 | .or => 1 | .and => 2 | .equality => 3 | .comparison => 4 | .sum => 5
  | .product => 6 | .exponent => 7 | .unary => 8 | .call => 9 | .step => 10 | .index => 11

def Level.ofKind : Kind → Level
  | .keyword .or_ => .or
  | .keyword .and_ => .and
  | .symbol .equal | .symbol .notEqual => .equality
  | .symbol .less | .symbol .greater | .symbol .lessEqual | .symbol .greaterEqual
  | .keyword .in_ | .symbol .ampersand | .symbol .pipe | .symbol .caret
  | .symbol .shiftLeft | .symbol .shiftRight => .comparison
  | .symbol .plus | .symbol .minus => .sum
  | .symbol .star | .symbol .slash | .symbol .percent => .product
  | .symbol .power => .exponent
  | .symbol .leftParen | .symbol .dot => .call
  | .symbol .increment | .symbol .decrement => .step
  | .symbol .leftBracket => .index
  | _ => .lowest

/-- How tightly the next token binds. `not` binds only as the start of `not in`. -/
def level : Parse Level := do
  match (← cur).kind with
  | .keyword .not_ => return if ← follows (.keyword .in_) then .comparison else .lowest
  | k => return Level.ofKind k

/-- The operator a token stands for between two operands, `not in` apart. -/
def binaryOp? : Kind → Option BinaryOp
  | .keyword .or_ => some (.connective .or)
  | .keyword .and_ => some (.connective .and)
  | .symbol .equal => some (.operator .equal)
  | .symbol .notEqual => some (.operator .notEqual)
  | .symbol .less => some (.operator .less)
  | .symbol .greater => some (.operator .greater)
  | .symbol .lessEqual => some (.operator .lessEqual)
  | .symbol .greaterEqual => some (.operator .greaterEqual)
  | .keyword .in_ => some (.operator .isIn)
  | .symbol .ampersand => some (.operator .bitAnd)
  | .symbol .pipe => some (.operator .bitOr)
  | .symbol .caret => some (.operator .bitXor)
  | .symbol .shiftLeft => some (.operator .shiftLeft)
  | .symbol .shiftRight => some (.operator .shiftRight)
  | .symbol .plus => some (.operator .add)
  | .symbol .minus => some (.operator .sub)
  | .symbol .star => some (.operator .mul)
  | .symbol .slash => some (.operator .div)
  | .symbol .percent => some (.operator .mod)
  | .symbol .power => some (.operator .pow)
  | _ => none

/-- The parser for operands: an expression whose operators all bind more tightly than the level. -/
abbrev Operand := Level → Parse Expr

/-- Expressions with commas between them up to `close`. The last may be followed by a comma. -/
def items (operand : Operand) (close : Kind) : Nat → Parse (List Expr)
  | 0 => outOfFuel
  | fuel + 1 => do
    if ← check close then return []
    let e ← operand .lowest
    if ← accept (.symbol .comma) then return e :: (← items operand close fuel)
    return [e]

def sequence (fuel : Nat) (operand : Operand) (close : Kind) : Parse (List Expr) := do
  let es ← items operand close fuel
  let _ ← expect close
  return es

def entries (operand : Operand) : Nat → Parse (List (Expr × Expr))
  | 0 => outOfFuel
  | fuel + 1 => do
    if ← check (.symbol .rightBrace) then return []
    let k ← operand .lowest
    let _ ← expect (.symbol .colon)
    let v ← operand .lowest
    if ← accept (.symbol .comma) then return (k, v) :: (← entries operand fuel)
    return [(k, v)]

/-- A parenthesis: the empty tuple, one expression, or a tuple if there is a comma. -/
def grouping (fuel : Nat) (operand : Operand) : Parse Expr := do
  let paren ← advance
  if ← accept (.symbol .rightParen) then return .tuple paren.pos []
  let first ← operand .lowest
  if ← accept (.symbol .comma) then
    let more ← sequence fuel operand (.symbol .rightParen)
    return .tuple paren.pos (first :: more)
  let _ ← expect (.symbol .rightParen)
  return first

def bracketed (operand : Operand) (object : Expr) : Parse Expr := do
  let bracket ← advance
  let start ← if ← check (.symbol .colon) then pure none else some <$> operand .lowest
  match start with
  | some i =>
    if !(← check (.symbol .colon)) then
      let _ ← expect (.symbol .rightBracket)
      return .index bracket.pos object i
  | none => pure ()
  let _ ← expect (.symbol .colon)
  let stop ← if ← check (.symbol .rightBracket) then pure none else some <$> operand .lowest
  let _ ← expect (.symbol .rightBracket)
  return .slice bracket.pos object start stop

/-- The name of a member, which may be spelled like a keyword. -/
def memberName : Parse Ident := do
  match (← cur).kind with
  | .ident | .keyword _ => return identOf (← advance)
  | _ => unexpected .ident

def holeText : Nat → List Char → Option (List Char × List Char)
  | _, [] => none
  | depth, '\x7b' :: cs => (holeText (depth + 1) cs).map fun (t, r) => ('\x7b' :: t, r)
  | 0, '\x7d' :: cs => some ([], cs)
  | depth + 1, '\x7d' :: cs => (holeText depth cs).map fun (t, r) => ('\x7d' :: t, r)
  | depth, c :: cs => (holeText depth cs).map fun (t, r) => (c :: t, r)

/-- Whether nothing but the end of the line follows, and what the next line starts with is no
lexical error. -/
def State.atLineEnd (s : State) : Bool :=
  match s.cur.kind with
  | .eof => true
  | .newline => (s.ahead.head?.map (·.kind)) != some .illegal
  | _ => false

/-- The expression in a hole, read on its own. Failures are reported at the template. -/
def hole (operand : Operand) (pos : Pos) (source : List Char) : Parse Expr :=
  match operand .lowest (.start (String.ofList (Text.trim source))) with
  | .ok e s => if s.atLineEnd then pure e else failAt pos (.badHole (String.ofList source))
  | .error (.complaint d) _ => failAt pos (.insideHole d.complaint.message)
  | .error .outOfFuel _ => outOfFuel

def textPart (collected : List Char) : List Part :=
  if collected.isEmpty then [] else [.text (String.ofList collected)]

/-- The parts of a template. A doubled brace is a brace of the text. -/
def templateParts (operand : Operand) (pos : Pos) :
    Nat → List Char → List Char → Parse (List Part)
  | _, collected, [] => pure (textPart collected)
  | 0, _, _ => outOfFuel
  | fuel + 1, collected, '\x7b' :: '\x7b' :: cs =>
    templateParts operand pos fuel (collected ++ ['\x7b']) cs
  | fuel + 1, collected, '\x7d' :: '\x7d' :: cs =>
    templateParts operand pos fuel (collected ++ ['\x7d']) cs
  | fuel + 1, collected, '\x7b' :: cs =>
    match holeText 0 cs with
    | none => failAt pos .openHole
    | some (source, rest) => do
      if (Text.trim source).isEmpty then failAt pos .emptyHole
      let e ← hole operand pos source
      let more ← templateParts operand pos fuel [] rest
      return textPart collected ++ .hole e :: more
  | fuel + 1, collected, c :: cs => templateParts operand pos fuel (collected ++ [c]) cs

def template (operand : Operand) : Parse Expr := do
  let token ← advance
  let text := match token.literal with
    | some (.str s) => s.toList
    | _ => []
  return .template token.pos (← templateParts operand token.pos text.length [] text)

def unary (operand : Operand) (op : UnaryOp) : Parse Expr := do
  let token ← advance
  return .unary token.pos op (← operand .unary)

def preStep (operand : Operand) (step : Step) : Parse Expr := do
  let token ← advance
  match ← operand .unary with
  | .name id => return .preStep token.pos step id
  | _ => failAt token.pos (.notVariable step.text)

def postStep (left : Expr) (step : Step) : Parse Expr := do
  let token ← advance
  match left with
  | .name id => return .postStep token.pos step id
  | _ => failAt token.pos (.notVariable step.text)

def literal : Parse Expr := do
  let token ← advance
  match token.literal with
  | some v => return .literal token.pos v
  | none => failAt token.pos (.badNumber token.lexeme)

def operandStart (fuel : Nat) (operand : Operand) : Parse Expr := do
  let token ← cur
  match token.kind with
  | .ident | .keyword .self => return .name (identOf (← advance))
  | .int | .float | .str | .keyword .true_ | .keyword .false_ => literal
  | .keyword .none =>
    let token ← advance
    return .literal token.pos .none
  | .template => template operand
  | .symbol .minus => unary operand .negate
  | .symbol .plus => unary operand .plus
  | .symbol .bang => unary operand .bang
  | .keyword .not_ => unary operand .not
  | .symbol .tilde => unary operand .complement
  | .symbol .increment => preStep operand .increment
  | .symbol .decrement => preStep operand .decrement
  | .symbol .leftParen => grouping fuel operand
  | .symbol .leftBracket =>
    let bracket ← advance
    return .array bracket.pos (← sequence fuel operand (.symbol .rightBracket))
  | .symbol .leftBrace =>
    let brace ← advance
    let es ← entries operand fuel
    let _ ← expect (.symbol .rightBrace)
    return .map brace.pos es
  | .keyword .super =>
    let word ← advance
    let _ ← expect (.symbol .dot)
    return .super word.pos (← memberName)
  | .illegal =>
    match token.literal with
    | some (.str reason) => failAt token.pos (.illegal reason)
    | _ => failAt token.pos (.illegal ("illegal token " ++ token.lexeme))
  | k => failAt token.pos (.noExpression k)

/-- What the next token makes of the expression before it. `**` groups to the right, the other
operators to the left. -/
def continued (fuel : Nat) (operand : Operand) (left : Expr) : Parse Expr := do
  let token ← cur
  match token.kind with
  | .symbol .leftParen =>
    let paren ← advance
    return .call paren.pos left (← sequence fuel operand (.symbol .rightParen))
  | .symbol .dot =>
    let _ ← advance
    return .attr left (← memberName)
  | .symbol .leftBracket => bracketed operand left
  | .symbol .increment => postStep left .increment
  | .symbol .decrement => postStep left .decrement
  | .keyword .not_ =>
    let _ ← advance
    let _ ← expect (.keyword .in_)
    return .binary token.pos (.operator .notIn) left (← operand .comparison)
  | .symbol .power =>
    let _ ← advance
    return .binary token.pos (.operator .pow) left (← operand .product)
  | k =>
    match binaryOp? k with
    | some op =>
      let _ ← advance
      return .binary token.pos op left (← operand (Level.ofKind k))
    | none => failAt token.pos (.noExpression k)

/-- Goes on as long as the next token binds more tightly than `limit`. -/
def climb (operand : Operand) (limit : Level) : Nat → Expr → Parse Expr
  | 0, _ => outOfFuel
  | fuel + 1, left => do
    if limit.rank < (← level).rank then
      climb operand limit fuel (← continued fuel operand left)
    else return left

/-- An expression whose operators all bind more tightly than `limit`. -/
def exprAt : Nat → Operand
  | 0, _ => outOfFuel
  | fuel + 1, limit => do
    let left ← operandStart fuel (exprAt fuel)
    climb (exprAt fuel) limit fuel left

end Spellbook.Parser
