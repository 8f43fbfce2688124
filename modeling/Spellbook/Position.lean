/-! Places in a source text, counted from 1 in lines and in characters of the line. -/
namespace Spellbook

structure Pos where
  line : Nat
  col : Nat
deriving DecidableEq, Repr, Inhabited

def Pos.start : Pos := ⟨1, 1⟩

def Pos.after (p : Pos) (c : Char) : Pos :=
  if c = '\n' then ⟨p.line + 1, 1⟩ else ⟨p.line, p.col + 1⟩

def Pos.advance (p : Pos) (cs : List Char) : Pos := cs.foldl Pos.after p

theorem Pos.advance_append (p : Pos) (as bs : List Char) :
    p.advance (as ++ bs) = (p.advance as).advance bs := by
  simp [Pos.advance]

def Pos.le (p q : Pos) : Bool := p.line < q.line || (p.line == q.line && p.col ≤ q.col)

end Spellbook
