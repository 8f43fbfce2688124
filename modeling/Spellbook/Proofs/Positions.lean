import Spellbook.Proofs.Program.Parser.Proceeds.Programs

/-! Every node of a parsed program stands where its own token does. For what stands in a hole of a
template this is a token of the text of the hole, whose places begin anew at 1:1, wherever the
template is. -/
namespace Spellbook

/-- The place is inside the piece of text that the token is. -/
def Token.Covers (t : Token) (p : Pos) : Prop :=
  ∃ taken more, t.lexeme.toList = taken ++ more ∧ more ≠ [] ∧ p = t.pos.advance taken

def Expr.isTemplate : Expr → Bool
  | .template .. => true
  | _ => false

/-- The expressions that stand in the statements of a program and in no hole of a template. -/
inductive Program.HasOpen (p : Program) : Expr → Prop where
  | tree {s : Stmt} {e : Expr} : p.Has s → e ∈ s.trees → p.HasOpen e
  | part {e e' : Expr} : p.HasOpen e → e.isTemplate = false → e' ∈ e.parts → p.HasOpen e'

/-- The expressions of a program, each with a text it can be read from. Down from the source, only
templates change the text, to that of one of their holes. -/
inductive Program.HasIn (p : Program) (source : String) : String → Expr → Prop where
  | tree {s : Stmt} {e : Expr} : p.Has s → e ∈ s.trees → p.HasIn source source e
  | part {text part : String} {e e' : Expr} : p.HasIn source text e → e' ∈ e.parts →
      e.Lends text part → p.HasIn source part e'

theorem Token.StandsIn.covers_pos {text : String} {t : Token} (h : t.StandsIn text) :
    t.Covers t.pos :=
  ⟨[], t.lexeme.toList, rfl, h.nonempty, rfl⟩

theorem Token.Covers.line_le {t : Token} {p : Pos} (h : t.Covers p) : t.pos.line ≤ p.line := by
  obtain ⟨taken, _, _, _, rfl⟩ := h
  exact t.pos.line_le_advance taken

theorem Expr.Lends.eq_of_isTemplate {e : Expr} {text part : String} (h : e.Lends text part)
    (he : e.isTemplate = false) : part = text := by
  cases e with
  | template => cases he
  | _ => exact h

section

variable {source : String} {e : Expr}

theorem readFrom_of_hasOpen (h : (parse source).program.HasOpen e) : e.ReadFrom source := by
  induction h with
  | tree hs he => exact (readFrom_of_has hs).self.trees _ he
  | part _ htemplate he ih =>
    obtain ⟨part, hlends, hread⟩ := ih.part he
    exact hlends.eq_of_isTemplate htemplate ▸ hread

theorem hasIn_of_hasExpr (h : (parse source).program.HasExpr e) :
    ∃ text, (parse source).program.HasIn source text e ∧ e.ReadFrom text := by
  induction h with
  | tree hs he => exact ⟨source, .tree hs he, (readFrom_of_has hs).self.trees _ he⟩
  | part _ he ih =>
    obtain ⟨text, hin, hread⟩ := ih
    obtain ⟨part, hlends, hpart⟩ := hread.part he
    exact ⟨part, .part hin he hlends, hpart⟩

theorem Expr.ReadFrom.covered (h : e.ReadFrom source) :
    ∃ t ∈ tokensOf source, t.StandsIn source ∧ t.Covers e.pos := by
  have htoken : HasToken source ⟨e.pos, fun _ => True⟩ := h.hasToken fun _ => trivial
  obtain ⟨t, ht, hstands, hpos, _⟩ := htoken.standsIn
  have hpos : t.pos = e.pos := hpos
  exact ⟨t, ht, hstands, hpos ▸ hstands.covers_pos⟩

end

/-- Outside of the holes of templates, the nodes of a program are at their own tokens, which stand
in the source there. In a hole, they are at their own tokens in the text of the hole. -/
theorem nodes_at_tokens (source : String) :
    (∀ s, (parse source).program.Has s → ∀ k ∈ s.marks, k.StandsIn source) ∧
    (∀ e, (parse source).program.HasOpen e → (∀ k ∈ e.marks, k.StandsIn source) ∧
      ∃ t ∈ tokensOf source, t.StandsIn source ∧ t.Covers e.pos) ∧
    ∀ e, (parse source).program.HasExpr e →
      ∃ text, (parse source).program.HasIn source text e ∧ (∀ k ∈ e.marks, k.StandsIn text) ∧
        ∃ t ∈ tokensOf text, t.StandsIn text ∧ t.Covers e.pos := by
  refine ⟨fun s hs k hk => ?_, fun e he => ?_, fun e he => ?_⟩
  · exact ((readFrom_of_has hs).self.marks k hk).standsIn
  · have hread := readFrom_of_hasOpen he
    exact ⟨fun k hk => (hread.marked k hk).standsIn, hread.covered⟩
  · obtain ⟨text, hin, hread⟩ := hasIn_of_hasExpr he
    exact ⟨text, hin, fun k hk => (hread.marked k hk).standsIn, hread.covered⟩

def greeting : String := "// greeting\ntext = f\"hello \x7bname\x7d\"\n"

theorem hasOpen_greeting : ∃ whole, (parse greeting).program.HasOpen whole ∧ whole.pos = ⟨2, 8⟩ ∧
    ∃ e ∈ whole.parts, (parse greeting).program.HasExpr e ∧ e.pos = ⟨1, 1⟩ := by
  have hany : ((parse greeting).program.statements.flatMap Stmt.trees).any (fun whole =>
      whole.pos = ⟨2, 8⟩ && whole.parts.any (·.pos = ⟨1, 1⟩)) = true := by
    decide +kernel
  obtain ⟨whole, hmem, hwhole⟩ := List.any_eq_true.1 hany
  obtain ⟨s, hs, htree⟩ := List.mem_flatMap.1 hmem
  simp only [Bool.and_eq_true, decide_eq_true_eq, List.any_eq_true] at hwhole
  obtain ⟨hpos, e, he, hstart⟩ := hwhole
  exact ⟨whole, .tree (.top hs) htree, hpos, e, he, .part (.tree (.top hs) htree) he, hstart⟩

theorem nodes_at_tokens_greeting : ∃ whole, (parse greeting).program.HasOpen whole ∧
    whole.pos = ⟨2, 8⟩ ∧ (∃ t ∈ tokensOf greeting, t.StandsIn greeting ∧ t.Covers whole.pos) ∧
    ∃ e ∈ whole.parts, (parse greeting).program.HasExpr e ∧ e.pos = ⟨1, 1⟩ ∧
      ∃ text, (parse greeting).program.HasIn greeting text e ∧ ∀ k ∈ e.marks, k.StandsIn text := by
  obtain ⟨whole, hopen, hpos, e, he, hexpr, hstart⟩ := hasOpen_greeting
  have hcovered := (nodes_at_tokens greeting).2.1 whole hopen
  obtain ⟨text, hin, hmarks, _⟩ := (nodes_at_tokens greeting).2.2 e hexpr
  exact ⟨whole, hopen, hpos, hcovered.2, e, he, hexpr, hstart, text, hin, hmarks⟩

/-- In a hole, the places are not those of the source. -/
theorem not_nodes_covered : ¬ ∀ source e, (parse source).program.HasExpr e →
    ∃ t ∈ tokensOf source, t.Covers e.pos := by
  intro hall
  obtain ⟨_, _, _, e, _, hexpr, hstart⟩ := hasOpen_greeting
  obtain ⟨t, ht, hcovers⟩ := hall greeting e hexpr
  have hbelow : ∀ t ∈ tokensOf greeting, 2 ≤ t.pos.line := by decide +kernel
  have hline : t.pos.line ≤ 1 := by simpa [hstart] using hcovers.line_le
  exact absurd (hbelow t ht) (by omega)

end Spellbook
