import Spellbook.Proofs.Program.Parser.Lines
import Spellbook.Proofs.Program.Parser.Proceeds.Programs

/-! Parsing undoes printing. -/
namespace Spellbook

open Spellbook.Expr

theorem Expr.lex_print {e : Expr} (he : e.All Legible) :
    (tokensOf e.print).map Token.bare = e.tokens ++ [Token.lineEnd, .eof] ∧
      lexErrorsOf e.print = [] ∧ e.tokens.length ≤ e.print.length := by
  have hlexes := lexesBack he [] .nil
  obtain ⟨c, cs, hcs, hc⟩ := print_first he
  obtain ⟨t, ts, hts, _⟩ := tokens_first he
  have hne : e.tokens ≠ [] := by
    rw [hts]
    exact List.cons_ne_nil t ts
  have hblank : Lexer.isInlineBlank c = false := by
    refine Lexer.isInlineBlank_of_ne ?_ ?_ ?_ <;> exact hc.ne (by decide)
  have hlength := hlexes.length_le
  rw [String.length_toList] at hlength
  rw [hcs] at hlexes
  have hline := lex_line hcs hblank (hc.ne (by decide)) (hc.ne (by decide)) hne hlexes
  exact ⟨hline.1, hline.2, hlength⟩

namespace Parser.Reads

theorem stmtOf {p : Parts} {e : Expr} (he : e.All Legible)
    (h : Reads p.expr (e.tokens ++ [Token.lineEnd]) [Token.lineEnd] (·.bare = e.bare)) :
    Reads (Parser.stmtOf p) (e.tokens ++ [Token.lineEnd]) []
      fun s => ∃ e', s = .expr e' ∧ e'.bare = e.bare := by
  obtain ⟨t, ts, hts, ht⟩ := tokens_first he
  rw [hts] at h ⊢
  exact line_stmtOf (Kind.starts_of_opens ht) h

theorem statements {stmt : Parse Stmt} {e : Expr} {fuel : Nat} (he : e.All Legible)
    (hstmt : Reads stmt (e.tokens ++ [Token.lineEnd]) []
      fun s => ∃ e', s = .expr e' ∧ e'.bare = e.bare) :
    Reads (Parser.statements stmt (· == .eof) isTopSeparator (fuel + 2))
      (e.tokens ++ [Token.lineEnd]) [] fun body => ∃ e', body = [.expr e'] ∧ e'.bare = e.bare := by
  obtain ⟨t, ts, hts, ht⟩ := tokens_first he
  rw [hts] at hstmt ⊢
  exact line_statements (Kind.starts_of_opens ht) hstmt

end Parser.Reads

/-- Whatever expression the parser has returned, parsing its printed form returns it again, if it
has no template, no double and no string with an escaped code point. -/
theorem parse_print {source : String} {e : Expr} (he : (parse source).program.HasExpr e)
    (hplain : e.All (·.isPlain = true)) :
    (parse e.print).diagnostics = [] ∧
      ∃ e', (parse e.print).program.statements = [.expr e'] ∧ e'.bare = e.bare := by
  have hlegible := (proper_of_hasExpr he).legible hplain
  obtain ⟨htokens, herrors, hlength⟩ := lex_print hlegible
  obtain ⟨fuel, hfuel, hlow⟩ : ∃ fuel, Parser.budget e.print.length = fuel + 2 ∧
      e.tokens.length ≤ fuel := by
    refine ⟨4 * e.print.length + 14, Nat.mul_add 4 _ 4, ?_⟩
    omega
  have hread : Parser.Reads (Parser.program (Parser.budget e.print.length))
      (e.tokens ++ [.lineEnd]) [] fun body => ∃ e', body = [.expr e'] ∧ e'.bare = e.bare := by
    rw [hfuel]
    refine .statements hlegible (.stmtOf hlegible ?_)
    have htakes := (Parser.readable hlegible).takesBack hlegible (Nat.lt_succ_of_le hlow)
    exact htakes .lowest .lineEnd [] (by decide) rfl
  have hat : (Parser.State.start e.print).At (e.tokens ++ [.lineEnd]) := by
    unfold Parser.State.start
    cases hcons : tokensOf e.print with
    | nil => simp [hcons] at htokens
    | cons t ts =>
      rw [hcons] at htokens
      exact ⟨htokens.trans (List.append_assoc _ [Token.lineEnd] _).symm, rfl⟩
  obtain ⟨body, s, hrun, hs, e', rfl, he'⟩ := hread _ hat
  have hparse : parse e.print = ⟨⟨[.expr e']⟩, []⟩ := by
    have hcollect : Parser.collect [].reverse [] = [] := List.mergeSort_nil
    simp only [parse, hrun, herrors, hs.found, hcollect]
  rw [hparse]
  exact ⟨rfl, e', rfl, he'⟩

/-- A member of a number named like a keyword, steps, a tuple of one and a slice without a start. -/
def crowded : String := "5.init(x++, (1,), -a not in b[:2], \"\\n\")"

theorem parse_print_crowded : ∃ e, (parse crowded).program.HasExpr e ∧
    e.print = "5.init((x++), (1,), ((-a) not in (b[:2])), \"\\n\")" ∧
    (parse e.print).diagnostics = [] ∧
    ∃ e', (parse e.print).program.statements = [.expr e'] ∧ e'.bare = e.bare := by
  have hany : ((parse crowded).program.statements.flatMap Stmt.trees).any (fun e =>
      decide (e.All (·.isPlain = true)) &&
        e.print == "5.init((x++), (1,), ((-a) not in (b[:2])), \"\\n\")") = true := by
    decide +kernel
  obtain ⟨e, hmem, he⟩ := List.any_eq_true.1 hany
  obtain ⟨s, hs, htree⟩ := List.mem_flatMap.1 hmem
  simp only [Bool.and_eq_true, decide_eq_true_eq, beq_iff_eq] at he
  have hhas : (parse crowded).program.HasExpr e := .tree (.top hs) htree
  exact ⟨e, hhas, he.2, parse_print hhas he.1⟩

end Spellbook
