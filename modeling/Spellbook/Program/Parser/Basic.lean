import Spellbook.Program.Diagnostic
import Spellbook.Program.Expr
import Spellbook.Token.Lexer

/-! The parser's state and its elementary moves. A failing parse keeps the tokens it has not
consumed, so that recovery can go on from there. -/
namespace Spellbook.Parser

structure State where
  cur : Token
  /-- The tokens behind it. There are none exactly when `cur` is EOF. -/
  ahead : List Token
  /-- The complaints so far, the latest first. -/
  found : List Diagnostic

inductive Halt where
  | complaint (d : Diagnostic)
  /-- The bound on the nesting or on the turns of a loop was reached. Nothing goes on from here. -/
  | outOfFuel
deriving DecidableEq, Repr

abbrev Parse := EStateM Halt State

def State.ofTokens : List Token → State
  | [] => ⟨⟨.eof, "", .start, none⟩, [], []⟩
  | t :: ts => ⟨t, ts, []⟩

def State.start (source : String) : State := .ofTokens (tokensOf source)

/-- The token to be looked at next. -/
def cur : Parse Token := fun s => .ok s.cur s

/-- Whether the next token but one is of this kind. -/
def follows (k : Kind) : Parse Bool := fun s => .ok ((s.ahead.head?.map (·.kind)) == some k) s

/-- Takes the next token. EOF is never used up. -/
def advance : Parse Token := fun s =>
  match s.ahead with
  | [] => .ok s.cur s
  | t :: ts => .ok s.cur { s with cur := t, ahead := ts }

def check (k : Kind) : Parse Bool := fun s => .ok (s.cur.kind == k) s

def accept (k : Kind) : Parse Bool := do
  if ← check k then
    let _ ← advance
    return true
  else return false

def failAt {α : Type} (pos : Pos) (c : Complaint) : Parse α := throw (.complaint ⟨pos, c⟩)

def outOfFuel {α : Type} : Parse α := throw .outOfFuel

def failHere {α : Type} (c : Complaint) : Parse α := do failAt (← cur).pos c

def unexpected {α : Type} (want : Kind) : Parse α := do failHere (.expected want (← cur))

def expect (k : Kind) : Parse Token := do
  if ← check k then advance else unexpected k

def report (d : Diagnostic) : Parse Unit := fun s => .ok () { s with found := d :: s.found }

/-- A parse whose complaint is handed back instead of ending the parse around it. -/
def outcome {α : Type} (p : Parse α) : Parse (Except Diagnostic α) := fun s =>
  match p s with
  | .ok a s => .ok (.ok a) s
  | .error (.complaint d) s => .ok (.error d) s
  | .error .outOfFuel s => .error .outOfFuel s

def identOf (t : Token) : Ident := ⟨t.lexeme, t.pos⟩

def ident : Parse Ident := return identOf (← expect .ident)

def endsStatement : Kind → Bool
  | .newline | .symbol .semicolon | .eof | .dedent => true
  | _ => false

def endStatement : Parse Unit := do
  match (← cur).kind with
  | .newline | .symbol .semicolon =>
    let _ ← advance
  | .eof | .dedent => return
  | _ => unexpected .newline

end Spellbook.Parser
