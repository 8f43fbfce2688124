import Spellbook.Token

/-! What the parser has to complain about. -/
namespace Spellbook

inductive Complaint where
  | illegal (reason : String)
  | expected (want : Kind) (got : Token)
  | unexpectedIndent
  | missingBlock
  | noExpression (kind : Kind)
  | badNumber (lexeme : String)
  | notVariable (step : String)
  | badTarget (op target : String)
  | tooManyParams (limit : Nat)
  | strayStatement (grimoire : String)
  | openHole
  | emptyHole
  | badHole (source : String)
  | insideHole (inner : String)
deriving DecidableEq, Repr

def Complaint.message : Complaint → String
  | .illegal reason => reason
  | .expected want got =>
    "expected next token to be " ++ want.name ++ ", got " ++ got.describe ++ " instead"
  | .unexpectedIndent => "unexpected indent"
  | .missingBlock => "expected an indented block"
  | .noExpression kind => "no prefix parse function for " ++ kind.name ++ " found"
  | .badNumber lexeme => "could not parse " ++ lexeme ++ " as a number"
  | .notVariable step => "operand of '" ++ step ++ "' must be a variable"
  | .badTarget op target => "invalid assignment target for '" ++ op ++ "': " ++ target
  | .tooManyParams limit => "can't have more than " ++ toString limit ++ " parameters"
  | .strayStatement grimoire => "only spells may appear in the body of grimoire " ++ grimoire
  | .openHole => "unterminated '\x7b' in f-string"
  | .emptyHole => "empty expression in f-string"
  | .badHole source => "invalid expression in f-string: " ++ source
  | .insideHole inner => "in f-string: " ++ inner

structure Diagnostic where
  pos : Pos
  complaint : Complaint
deriving DecidableEq, Repr

def Diagnostic.message (d : Diagnostic) : String :=
  "[line " ++ toString d.pos.line ++ ":" ++ toString d.pos.col ++ "] parser error: " ++
    d.complaint.message

end Spellbook
