import Spellbook.Proofs.Nesting
import Spellbook.Proofs.Program.Parser.Mirrors.Layouts

/-! Texts whose tokens are paired hold the same program. -/
namespace Spellbook

/-- The texts hold the same program, and the second is as free of diagnostics as the first. -/
structure SameProgram (source source' : String) : Prop where
  clean : (parse source').diagnostics = []
  bare : (parse source').program.bare = (parse source).program.bare

theorem EndsWithEof.ne_eof {ts more : List Token} {t : Token} (h : EndsWithEof (ts ++ t :: more)) :
    ∀ a ∈ ts, a.kind ≠ .eof := by
  intro a ha
  obtain ⟨before, behind, rfl⟩ := List.append_of_mem ha
  have hsuffix : a :: (behind ++ t :: more) <:+ before ++ a :: behind ++ t :: more :=
    ⟨before, by simp⟩
  exact fun heof => by simpa using (h.of_suffix hsuffix (by simp)).eof_iff.1 heof

namespace Parser

theorem sameProgram_of_rel {P : BodyPairing} (hmarked : P.ReadsMarked)
    (hfound : ∀ s t, P.rel 0 s t → t.found = []) {source source' : String}
    (hstart : P.rel 0 (State.start source) (State.start source'))
    (hclean : (parse source).diagnostics = []) (herrors : lexErrorsOf source' = []) :
    SameProgram source source' := by
  obtain ⟨body, s, hreading⟩ := reading source
  obtain ⟨body', s', hreading'⟩ := reading source'
  obtain ⟨-, body₁, s₁, hsilent, hrun₁⟩ := program_of_no_diagnostics hclean
  have hle := Nat.le_max_left (budget source.length) (budget source'.length)
  have hle' := Nat.le_max_right (budget source.length) (budget source'.length)
  have heq := (hreading.run _ (Nat.le_refl _)).symm.trans hrun₁
  cases heq
  obtain ⟨b, t, hok, hlike, hrel⟩ := (Echoes.program hmarked (Nat.lt_succ_self _)).mirrors _ _
    hstart _ _ (hreading.run _ hle) hsilent
  have heq' := (hreading'.run _ (Nat.le_succ_of_le hle')).symm.trans hok
  cases heq'
  constructor
  · simp [hreading'.parse, hfound _ _ hrel, herrors, collect, unreported]
  · simp only [hreading.parse, hreading'.parse, Program.bare, hlike]

/-! An INDENT that no colon leads to -/

/-- One parser before an INDENT that no colon and line end lead to. -/
def BeforeIndent (more : List Token) (s : State) : Prop :=
  ∃ X, s.view = X ++ .indent :: more ∧ (∀ x ∈ X, x.kind ≠ .eof) ∧
    ¬ [Kind.symbol .colon, .newline] <:+ X.map (·.kind)

variable {more : List Token} {s : State}

theorem BeforeIndent.next (h : BeforeIndent more s) (hkind : s.cur.kind ≠ .indent) :
    BeforeIndent more s.next := by
  obtain ⟨X, hs, heof, hcolon⟩ := h
  cases X with
  | nil => exact absurd (State.kind_of_view hs) hkind
  | cons x X =>
    refine ⟨X, State.next_view hs (by simp), fun y hy => heof y (List.mem_cons_of_mem x hy), ?_⟩
    exact fun hsuffix => hcolon (hsuffix.trans (List.suffix_cons _ _))

theorem BeforeIndent.inside (h : BeforeIndent more s) (hcolon : s.cur.kind = .symbol .colon)
    (hline : s.next.cur.kind = .newline) : BeforeIndent more s.next.next.next := by
  obtain ⟨X, hs, heof, hne⟩ := h
  cases X with
  | nil => cases (State.kind_of_view hs).symm.trans hcolon
  | cons x X =>
    have hs₁ : s.next.view = X ++ .indent :: more := State.next_view hs (by simp)
    cases X with
    | nil => cases (State.kind_of_view hs₁).symm.trans hline
    | cons y X =>
      have hs₂ : s.next.next.view = X ++ .indent :: more := State.next_view hs₁ (by simp)
      cases X with
      | nil =>
        have hx : x.kind = .symbol .colon := (State.kind_of_view hs).symm.trans hcolon
        have hy : y.kind = .newline := (State.kind_of_view hs₁).symm.trans hline
        refine absurd ?_ hne
        simp [hx, hy]
      | cons z X =>
        refine ⟨X, State.next_view hs₂ (by simp), fun u hu => heof u (by simp [hu]), ?_⟩
        exact fun hsuffix => hne (hsuffix.trans ⟨[x.kind, y.kind, z.kind], rfl⟩)

def BodyPairing.beforeIndent (more : List Token) : BodyPairing where
  rel _ s t := s = t ∧ BeforeIndent more s
  cur h _ := h.1 ▸ rfl
  follows h _ := h.1 ▸ rfl
  take := by
    rintro n s _ ⟨rfl, h⟩ htaken
    refine ⟨rfl, h.next fun hk => ?_⟩
    rw [hk] at htaken
    cases htaken
  same h := h.1 ▸ rfl
  pass := by
    rintro s _ ⟨rfl, h⟩ hkind
    refine ⟨rfl, h.next fun hk => ?_⟩
    simp [hk] at hkind
  marked _ _ := False
  body := by
    rintro s _ ⟨rfl, h⟩ hkind
    refine .inr ⟨⟨rfl, h.next (by simp [hkind])⟩, fun hline _ => ⟨rfl, h.inside hkind hline⟩⟩

theorem view_start (source : String) :
    (State.start source).view = (tokensOf source).map Token.bare := by
  rw [State.view, tokens_start]

/-- In a text without diagnostics a colon and a line end stand before each INDENT. -/
theorem colon_before_indent {source : String} (hclean : (parse source).diagnostics = [])
    {X : List Token} (htokens : (tokensOf source).map Token.bare = X ++ .indent :: more) :
    [Kind.symbol .colon, .newline] <:+ X.map (·.kind) := by
  by_contra hne
  obtain ⟨-, body, s, hsilent, hrun⟩ := program_of_no_diagnostics hclean
  obtain ⟨_, _, hreading⟩ := reading source
  cases (hreading.run _ (Nat.le_refl _)).symm.trans hrun
  have hmarked : (BodyPairing.beforeIndent more).ReadsMarked :=
    ⟨fun _ _ _ h => h.elim, fun _ _ _ h => h.elim⟩
  have heof : ∀ x ∈ X, x.kind ≠ .eof := by
    obtain ⟨A, B, hsplit, rfl, hB⟩ := List.map_eq_append_iff.1 htokens
    obtain ⟨i, rest, rfl, -, -⟩ := List.map_eq_cons_iff.1 hB
    have hends := endsWithEof_tokensOf source
    rw [hsplit] at hends
    intro x hx
    obtain ⟨a, ha, rfl⟩ := List.mem_map.1 hx
    exact hends.ne_eof a ha
  have hstart : BeforeIndent more (State.start source) :=
    ⟨X, (view_start source).trans htokens, heof, hne⟩
  obtain ⟨_, _, -, -, -, X', hs, heof', -⟩ := (Echoes.program hmarked
    (Nat.lt_succ_self _)).mirrors _ _ ⟨rfl, hstart⟩ _ _ hrun hsilent
  cases X' with
  | nil => cases (State.kind_of_view hs).symm.trans hreading.eof
  | cons x X' => exact heof' x List.mem_cons_self ((State.kind_of_view hs).symm.trans hreading.eof)

end Parser

end Spellbook
