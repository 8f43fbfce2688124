import Spellbook.Proofs.Program.Parser.Printed

/-! Texts of one line that hold an expression. -/
namespace Spellbook

namespace Parser.Reads

variable {p : Parts} {t : Token} {ts : List Token} {P : Expr → Prop}

theorem endStatement : Reads Parser.endStatement [.lineEnd] [] fun _ => True := by
  refine look fun t ht => ?_
  rw [Token.kind_of_bare ht]
  exact advance.bind fun _ _ => .pure trivial

theorem line_exprStmt (h : Reads p.expr (ts ++ [Token.lineEnd]) [Token.lineEnd] P) :
    Reads (Parser.exprStmt p) (ts ++ [Token.lineEnd]) [] fun s => ∃ e, s = .expr e ∧ P e := by
  have hlist : Reads (Parser.exprList p) (ts ++ [Token.lineEnd]) [Token.lineEnd] P := by
    refine h.bind fun e he => (check_false (by decide)).known ?_
    exact .pure he
  refine hlist.bind fun e he => look fun t ht => ?_
  rw [Token.kind_of_bare ht]
  exact endStatement.bind fun _ _ => .pure ⟨e, rfl, he⟩

theorem line_stmtOf (ht : t.kind.starts = true)
    (h : Reads p.expr (t :: ts ++ [Token.lineEnd]) [Token.lineEnd] P) :
    Reads (Parser.stmtOf p) (t :: ts ++ [Token.lineEnd]) [] fun s => ∃ e, s = .expr e ∧ P e := by
  have hstmt := line_exprStmt h
  refine look fun t' ht' => ?_
  rw [Token.kind_of_bare ht']
  unfold Kind.starts at ht
  split at ht
  iterate 2
    rename_i heq
    rw [heq]
    exact hstmt
  · unfold Kind.opens at ht
    split at ht
    iterate 11
      rename_i heq
      rw [heq]
      exact hstmt
    cases ht

theorem isTopSeparator_of_starts {k : Kind} (h : k.starts = true) : isTopSeparator k = false := by
  unfold isTopSeparator
  split
  iterate 3 cases h
  rfl

theorem line_statements {stmt : Parse Stmt} {fuel : Nat} (ht : t.kind.starts = true)
    (hstmt : Reads stmt (t :: ts ++ [Token.lineEnd]) [] fun s => ∃ e, s = .expr e ∧ P e) :
    Reads (Parser.statements stmt (· == .eof) isTopSeparator (fuel + 2))
      (t :: ts ++ [Token.lineEnd]) [] fun body => ∃ e, body = [.expr e] ∧ P e := by
  have hends : ¬ (t.kind == .eof) = true := fun h => ne_of_test ht rfl (eq_of_beq h)
  refine look fun t' ht' => ?_
  rw [Token.kind_of_bare ht', if_neg hends, isTopSeparator_of_starts ht, if_neg Bool.false_ne_true,
    if_neg (ne_of_test ht rfl)]
  refine hstmt.outcome.bind ?_
  rintro _ ⟨_, rfl, e, rfl, he⟩
  have hend : Reads (Parser.statements stmt (· == .eof) isTopSeparator (fuel + 1)) [] []
      (· = []) := by
    refine look_end fun t' ht' => ?_
    rw [ht']
    exact .pure rfl
  exact hend.bind fun more hmore => .pure ⟨e, by rw [hmore], he⟩

end Parser.Reads

theorem parse_expression {source : String} {t : Token} {ts : List Token} {P : Expr → Prop}
    (htokens : (tokensOf source).map Token.bare = t :: ts ++ [Token.lineEnd, .eof])
    (herrors : lexErrorsOf source = []) (ht : t.kind.starts = true)
    (hread : Parser.Reads (Parser.exprAt (Parser.budget source.length - 1) .lowest)
      (t :: ts ++ [Token.lineEnd]) [Token.lineEnd] P) :
    (parse source).diagnostics = [] ∧
      ∃ e, (parse source).program.statements = [.expr e] ∧ P e := by
  obtain ⟨fuel, hfuel⟩ : ∃ fuel, Parser.budget source.length = fuel + 2 :=
    ⟨4 * source.length + 14, Nat.mul_add 4 _ 4⟩
  have hprogram : Parser.Reads (Parser.program (Parser.budget source.length))
      (t :: ts ++ [Token.lineEnd]) [] fun body => ∃ e, body = [.expr e] ∧ P e := by
    rw [hfuel] at hread ⊢
    exact .line_statements ht (.line_stmtOf ht hread)
  have hat : (Parser.State.start source).At (t :: ts ++ [Token.lineEnd]) := by
    unfold Parser.State.start
    cases hcons : tokensOf source with
    | nil => simp [hcons] at htokens
    | cons t' ts' =>
      rw [hcons] at htokens
      exact ⟨htokens.trans (List.append_assoc _ [Token.lineEnd] _).symm, rfl⟩
  obtain ⟨body, s, hrun, hs, e, rfl, he⟩ := hprogram _ hat
  have hcollect : Parser.collect [].reverse [] = [] := List.mergeSort_nil
  have hparse : parse source = ⟨⟨[.expr e]⟩, []⟩ := by
    simp only [parse, hrun, herrors, hs.found, hcollect]
  rw [hparse]
  exact ⟨rfl, e, rfl, he⟩

theorem parse_line {source : String} {t : Token} {ts : List Token} {P : Expr → Prop}
    (htokens : (tokensOf source).map Token.bare = t :: ts ++ [Token.lineEnd, .eof])
    (herrors : lexErrorsOf source = []) (ht : t.kind.opens = true)
    (hread : Parser.Reads (Parser.exprAt (Parser.budget source.length - 1) .lowest)
      (t :: ts ++ [Token.lineEnd]) [Token.lineEnd] P) :
    (parse source).diagnostics = [] ∧
      ∃ e, (parse source).program.statements = [.expr e] ∧ P e :=
  parse_expression htokens herrors (Kind.starts_of_opens ht) hread

end Spellbook
