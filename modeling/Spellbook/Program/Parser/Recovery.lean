import Spellbook.Program.Parser.Basic

/-! Going on after a failed statement. -/
namespace Spellbook.Parser

/-- Skips a block to behind its DEDENT. `depth` blocks are open before `cur`. -/
def skipBlock (depth : Nat) (cur : Token) : List Token → Token × List Token
  | [] => (cur, [])
  | next :: rest =>
    match cur.kind with
    | .eof => (cur, next :: rest)
    | .indent => skipBlock (depth + 1) next rest
    | .dedent => if depth ≤ 1 then (next, rest) else skipBlock (depth - 1) next rest
    | _ => skipBlock depth next rest

theorem length_skipBlock (depth : Nat) (cur : Token) (ts : List Token) :
    (skipBlock depth cur ts).2.length ≤ ts.length := by
  induction ts generalizing depth cur with
  | nil => simp [skipBlock]
  | cons next rest ih =>
    unfold skipBlock
    split
    · simp
    · exact Nat.le_succ_of_le (ih _ _)
    · split
      · simp
      · exact Nat.le_succ_of_le (ih _ _)
    · exact Nat.le_succ_of_le (ih _ _)

/-- Skips to where the next statement may start: behind the end of the line, and behind the block
of the failed statement if it has one. The end of the block around it is left standing. -/
def nextStatement (cur : Token) : List Token → Token × List Token
  | [] => (cur, [])
  | next :: rest =>
    match cur.kind with
    | .eof | .dedent => (cur, next :: rest)
    | .newline => if next.kind = .indent then skipBlock 0 next rest else (next, rest)
    | .indent =>
      let behind := skipBlock 1 next rest
      nextStatement behind.1 behind.2
    | _ => nextStatement next rest
termination_by ts => ts.length
decreasing_by
  · exact Nat.lt_succ_of_le (length_skipBlock 1 next rest)
  · exact Nat.lt_succ_self _

def skipHere : Parse Unit := fun s =>
  let behind := skipBlock 0 s.cur s.ahead
  .ok () { s with cur := behind.1, ahead := behind.2 }

def synchronize : Parse Unit := fun s =>
  let behind := nextStatement s.cur s.ahead
  .ok () { s with cur := behind.1, ahead := behind.2 }

end Spellbook.Parser
