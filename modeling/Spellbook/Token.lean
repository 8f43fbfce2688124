import Spellbook.Position

/-! Tokens: their kinds, the values they carry and how they are named in messages. -/
namespace Spellbook

inductive Symbol where
  | assign | plus | minus | star | slash | percent | power
  | plusAssign | minusAssign | starAssign | slashAssign | increment | decrement
  | equal | notEqual | less | greater | lessEqual | greaterEqual
  | bang | ampersand | pipe | caret | tilde | shiftLeft | shiftRight
  | comma | semicolon | colon | dot | atSign | underscore
  | leftParen | rightParen | leftBrace | rightBrace | leftBracket | rightBracket
deriving DecidableEq, Repr

def Symbol.text : Symbol → String
  | .assign => "=" | .plus => "+" | .minus => "-" | .star => "*" | .slash => "/"
  | .percent => "%" | .power => "**"
  | .plusAssign => "+=" | .minusAssign => "-=" | .starAssign => "*=" | .slashAssign => "/="
  | .increment => "++" | .decrement => "--"
  | .equal => "==" | .notEqual => "!=" | .less => "<" | .greater => ">"
  | .lessEqual => "<=" | .greaterEqual => ">="
  | .bang => "!" | .ampersand => "&" | .pipe => "|" | .caret => "^" | .tilde => "~"
  | .shiftLeft => "<<" | .shiftRight => ">>"
  | .comma => "," | .semicolon => ";" | .colon => ":" | .dot => "." | .atSign => "@"
  | .underscore => "_"
  | .leftParen => "(" | .rightParen => ")" | .leftBrace => "\x7b" | .rightBrace => "\x7d"
  | .leftBracket => "[" | .rightBracket => "]"

/-- Words that are never names. -/
inductive Keyword where
  | import_ | match_ | case_ | spell | self | init | grim | true_ | false_ | if_ | otherwise
  | else_ | for_ | in_ | while_ | stop | skip | ignore | and_ | or_ | not_ | return_ | attempt
  | resolve | ensnare | raise | as_ | arcane | arcanespell | super | none | main | global | with_
deriving DecidableEq, Repr

def Keyword.word : Keyword → String
  | .import_ => "import" | .match_ => "match" | .case_ => "case" | .spell => "spell"
  | .self => "self" | .init => "init" | .grim => "grim" | .true_ => "True"
  | .false_ => "False" | .if_ => "if" | .otherwise => "otherwise" | .else_ => "else"
  | .for_ => "for" | .in_ => "in" | .while_ => "while" | .stop => "stop" | .skip => "skip"
  | .ignore => "ignore" | .and_ => "and" | .or_ => "or" | .not_ => "not"
  | .return_ => "return" | .attempt => "attempt" | .resolve => "resolve"
  | .ensnare => "ensnare" | .raise => "raise" | .as_ => "as" | .arcane => "arcane"
  | .arcanespell => "arcanespell" | .super => "super" | .none => "None" | .main => "main"
  | .global => "global" | .with_ => "with"

def Keyword.all : List Keyword :=
  [.import_, .match_, .case_, .spell, .self, .init, .grim, .true_, .false_, .if_, .otherwise,
   .else_, .for_, .in_, .while_, .stop, .skip, .ignore, .and_, .or_, .not_, .return_, .attempt,
   .resolve, .ensnare, .raise, .as_, .arcane, .arcanespell, .super, .none, .main, .global, .with_]

def Keyword.ofWord? (w : String) : Option Keyword := Keyword.all.find? (·.word == w)

inductive Literal where
  | none
  | int (n : Int64)
  | float (x : Float)
  | str (s : String)
  | bool (b : Bool)
deriving DecidableEq, Repr

inductive Kind where
  | illegal | eof | newline | indent | dedent
  | ident | int | float | str | template
  | symbol (s : Symbol)
  | keyword (k : Keyword)
deriving DecidableEq, Repr

/-- The name of a kind in messages. Symbols are named by themselves, keywords in capitals. -/
def Kind.name : Kind → String
  | .illegal => "ILLEGAL" | .eof => "EOF" | .newline => "NEWLINE"
  | .indent => "INDENT" | .dedent => "DEDENT"
  | .ident => "IDENT" | .int => "INT" | .float => "FLOAT" | .str => "STRING"
  | .template => "FSTRING"
  | .symbol s => s.text
  | .keyword k => String.ofList (k.word.toList.map Char.toUpper)

structure Token where
  kind : Kind
  lexeme : String
  pos : Pos
  /-- The value of a literal, or the complaint an illegal token stands for. An integer that does
  not fit in 64 bits has none. -/
  literal : Option Literal
deriving DecidableEq, Repr

/-- A token in messages. Names, numbers and illegal text are shown beside their kind. -/
def Token.describe (t : Token) : String :=
  match t.kind with
  | .ident | .int | .float | .illegal => t.kind.name ++ " '" ++ t.lexeme ++ "'"
  | _ => t.kind.name

end Spellbook
