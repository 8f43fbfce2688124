import Spellbook.Program.Parser.Recovery
import Mathlib.Data.List.Infix

/-! Recovery leaves a rest of the tokens that it is given, and does not stay where it is. -/
namespace Spellbook.Parser

theorem skipBlock_suffix (depth : Nat) (cur : Token) (ts : List Token) :
    (skipBlock depth cur ts).1 :: (skipBlock depth cur ts).2 <:+ cur :: ts := by
  fun_induction skipBlock depth cur ts with
  | case1 | case2 => exact List.suffix_rfl
  | case3 _ _ _ _ _ ih | case5 _ _ _ _ _ _ ih | case6 _ _ _ _ _ _ _ ih =>
    exact ih.trans (List.suffix_cons _ _)
  | case4 => exact List.suffix_cons _ _

theorem nextStatement_suffix (cur : Token) (ts : List Token) :
    (nextStatement cur ts).1 :: (nextStatement cur ts).2 <:+ cur :: ts := by
  fun_induction nextStatement cur ts with
  | case1 | case2 | case3 => exact List.suffix_rfl
  | case4 => exact (skipBlock_suffix _ _ _).trans (List.suffix_cons _ _)
  | case5 => exact List.suffix_cons _ _
  | case6 cur next rest _ behind =>
    rename_i ih
    exact ih.trans ((skipBlock_suffix 1 next rest).trans (List.suffix_cons cur _))
  | case7 _ _ _ _ _ _ _ ih => exact ih.trans (List.suffix_cons _ _)

theorem nextStatement_progress {cur next : Token} {rest : List Token} (heof : cur.kind ≠ .eof)
    (hdedent : cur.kind ≠ .dedent) :
    (nextStatement cur (next :: rest)).1 :: (nextStatement cur (next :: rest)).2 <:+
      next :: rest := by
  rw [nextStatement]
  split
  · exact absurd ‹_› heof
  · exact absurd ‹_› hdedent
  · split
    · exact skipBlock_suffix _ _ _
    · exact List.suffix_rfl
  · exact (nextStatement_suffix _ _).trans (skipBlock_suffix _ _ _)
  · exact nextStatement_suffix _ _

theorem skipBlock_progress {cur next : Token} {rest : List Token} (hcur : cur.kind = .indent) :
    (skipBlock 0 cur (next :: rest)).1 :: (skipBlock 0 cur (next :: rest)).2 <:+ next :: rest := by
  rw [skipBlock]
  simp only [hcur]
  exact skipBlock_suffix _ _ _

end Spellbook.Parser
