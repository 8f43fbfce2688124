import Mathlib.Data.List.Pairwise
import Spellbook.Proofs.Program.Parser.Proceeds.Programs
import Spellbook.Proofs.Token.Errors

/-! Lexical errors among the diagnostics of a text. The parser meets the illegal tokens, unless it
skips them, and the errors at whose places it has reported nothing are added when it is done. Only the
error of a comment that never ends is not where its token is, so it alone can be reported twice. -/
namespace Spellbook

open Spellbook.Parser (collect unreported)

/-- What the parser reports by itself, in order. -/
def Parser.findings (source : String) : List Diagnostic :=
  match Parser.program (Parser.budget source.length) (.start source) with
  | .ok _ s | .error _ s => s.found.reverse

/-- The error that the token stands for is reported: with its reason, at the token or where the error
is. -/
def Diagnostic.Reports (d : Diagnostic) (l : Lexed) : Prop :=
  ∃ e, l.error = some e ∧ d.complaint = .illegal e.flaw.reason ∧
    (d.pos = l.token.pos ∨ d.pos = e.pos)

/-- The error that the token stands for is reported at two places. -/
def ReportedTwice (source : String) (l : Lexed) : Prop :=
  ∃ d ∈ (parse source).diagnostics, ∃ d' ∈ (parse source).diagnostics,
    d.Reports l ∧ d'.Reports l ∧ d.pos ≠ d'.pos

/-! Merging -/

theorem diagnostics_eq (source : String) :
    (parse source).diagnostics = collect (Parser.findings source) (lexErrorsOf source) := by
  simp only [parse, Parser.findings]
  cases Parser.program (Parser.budget source.length) (.start source) with
  | ok _ _ => rfl
  | error _ _ => rfl

theorem mem_unreported {found : List Diagnostic} {errors : List LexError} {d : Diagnostic} :
    d ∈ unreported found errors ↔ ∃ e ∈ errors, (∀ d' ∈ found, d'.pos ≠ e.pos) ∧
      d = ⟨e.pos, .illegal e.flaw.reason⟩ := by
  simp only [unreported, List.mem_map, List.mem_filter, Bool.not_eq_true', List.any_eq_false,
    beq_iff_eq, and_assoc]
  exact exists_congr fun e => and_congr_right' (and_congr_right' eq_comm)

theorem mem_diagnostics {source : String} {d : Diagnostic} :
    d ∈ (parse source).diagnostics ↔
      d ∈ Parser.findings source ∨ d ∈ unreported (Parser.findings source) (lexErrorsOf source) := by
  rw [diagnostics_eq, collect, List.mem_mergeSort, List.mem_append]

/-- Where there is a lexical error something is reported, if not the error itself. -/
theorem exists_at_error {source : String} {e : LexError} (he : e ∈ lexErrorsOf source) :
    ∃ d ∈ (parse source).diagnostics, d.pos = e.pos := by
  by_cases hfound : ∃ d ∈ Parser.findings source, d.pos = e.pos
  · obtain ⟨d, hd, hpos⟩ := hfound
    exact ⟨d, mem_diagnostics.2 (.inl hd), hpos⟩
  · refine ⟨_, mem_diagnostics.2 (.inr (mem_unreported.2 ⟨e, he, fun d hd hpos => ?_, rfl⟩)), rfl⟩
    exact hfound ⟨d, hd, hpos⟩

/-! The illegal tokens of a text -/

section Source

variable {source : String} {l l' : Lexed} {e : LexError} {d : Diagnostic} {reason : String}

theorem standsFor_of_mem (hl : l ∈ lex source) (he : l.error = some e) : l.token.StandsFor e :=
  ⟨(Lexer.honest_run _ l hl).reason e he, Lexer.placed_run _ l hl e he⟩

theorem mem_lexErrorsOf : e ∈ lexErrorsOf source ↔ ∃ l ∈ lex source, l.error = some e :=
  List.mem_filterMap

theorem openComment_unique (hl : l ∈ lex source) (hl' : l' ∈ lex source)
    (h : l.isOpenComment = true) (h' : l'.isOpenComment = true) : l = l' := by
  have hpair : (lex source).Pairwise fun l l' =>
      l.isOpenComment = true → l'.isOpenComment = true → l = l' := by
    refine (Lexer.last_openComment _).imp fun {l l'} hlast h h' => ?_
    simp [Lexed.isOpenComment, hlast h] at h'
  have hsymm : Std.Symm fun l l' : Lexed =>
      l.isOpenComment = true → l'.isOpenComment = true → l = l' :=
    ⟨fun _ _ hxy hy hx => (hxy hx hy).symm⟩
  exact hpair.forall_of_forall (fun _ _ _ _ => rfl) hl hl' h h'

theorem quotes_findings (source : String) :
    ∀ d ∈ Parser.findings source, d.Quotes (tokensOf source) := by
  obtain ⟨body, s, hreading⟩ := Parser.reading source
  intro d hd
  simp only [Parser.findings, hreading.run _ (Nat.le_refl _)] at hd
  exact hreading.quotes d (List.mem_reverse.1 hd)

theorem exists_quoted (hd : d.Quotes (tokensOf source)) (hreason : d.complaint = .illegal reason) :
    ∃ l ∈ lex source, ∃ e, l.error = some e ∧ reason = e.flaw.reason ∧ d.pos = l.token.pos := by
  obtain ⟨t, ht, hk, hpos, hliteral⟩ := hd reason hreason
  obtain ⟨l, hl, rfl⟩ := List.mem_map.1 ht
  have hhonest := Lexer.honest_run _ l hl
  obtain ⟨e, he⟩ := Option.isSome_iff_exists.1 (hhonest.illegal.1 hk)
  refine ⟨l, hl, e, he, ?_, hpos.symm⟩
  simpa [hhonest.reason e he, eq_comm] using hliteral

theorem exists_reported (hd : d ∈ (parse source).diagnostics)
    (hreason : d.complaint = .illegal reason) : ∃ l ∈ lex source, d.Reports l := by
  obtain hd | hd := mem_diagnostics.1 hd
  · obtain ⟨l, hl, e, he, rfl, hpos⟩ := exists_quoted (quotes_findings source d hd) hreason
    exact ⟨l, hl, e, he, hreason, .inl hpos⟩
  · obtain ⟨e, he, -, rfl⟩ := mem_unreported.1 hd
    obtain ⟨l, hl, hle⟩ := mem_lexErrorsOf.1 he
    exact ⟨l, hl, e, hle, rfl, .inr rfl⟩

theorem isOpenComment_of_reason (he : l.error = some e)
    (hreason : Flaw.openComment.reason = e.flaw.reason) : l.isOpenComment = true :=
  (Lexed.isOpenComment_iff he).2 (Flaw.reason_inj hreason.symm)

section OpenComment

variable (hl : l ∈ lex source) (he : l.error = some e) (hopen : e.flaw = .openComment)
  (hpos : l.token.pos ≠ e.pos) (hd : d ∈ (parse source).diagnostics)
  (hreason : d.complaint = .illegal Flaw.openComment.reason)

include hl he hopen hpos hd hreason

theorem mem_findings_of_token (hplace : d.pos = l.token.pos) : d ∈ Parser.findings source := by
  obtain hd | hd := mem_diagnostics.1 hd
  · exact hd
  · obtain ⟨e', he', -, rfl⟩ := mem_unreported.1 hd
    obtain ⟨l', hl', hle'⟩ := mem_lexErrorsOf.1 he'
    have hopen' := isOpenComment_of_reason hle' (by simpa [eq_comm] using hreason)
    obtain rfl := openComment_unique hl hl' ((Lexed.isOpenComment_iff he).2 hopen) hopen'
    obtain rfl := Option.some.inj (he.symm.trans hle')
    exact absurd hplace.symm hpos

theorem free_of_error (hplace : d.pos = e.pos) :
    ∀ d' ∈ Parser.findings source, d'.pos ≠ e.pos := by
  obtain hd | hd := mem_diagnostics.1 hd
  · obtain ⟨l', hl', e', hle', hsame, hplace'⟩ :=
      exists_quoted (quotes_findings source d hd) hreason
    obtain rfl := openComment_unique hl hl' ((Lexed.isOpenComment_iff he).2 hopen)
      (isOpenComment_of_reason hle' hsame)
    exact absurd (hplace'.symm.trans hplace) hpos
  · obtain ⟨e', he', hfree, rfl⟩ := mem_unreported.1 hd
    rwa [← hplace]

end OpenComment

/-- The error of a comment that never ends is reported at the token by the parser, and in the first
column of the line by the merge. Every other error is reported at one place. -/
theorem reportedTwice_iff (hl : l ∈ lex source) : ReportedTwice source l ↔
    l.isOpenComment = true ∧ l.token.pos.col ≠ 1 ∧
      ⟨l.token.pos, .illegal Flaw.openComment.reason⟩ ∈ Parser.findings source ∧
      ∀ d ∈ Parser.findings source, d.pos ≠ ⟨l.token.pos.line, 1⟩ := by
  constructor
  · rintro ⟨d, hd, d', hd', ⟨e, he, hreason, hplace⟩, ⟨e', he', hreason', hplace'⟩, hne⟩
    obtain rfl := Option.some.inj (he.symm.trans he')
    have hpos : l.token.pos ≠ e.pos := by
      intro heq
      rw [heq, or_self] at hplace hplace'
      exact hne (hplace.trans hplace'.symm)
    have herror := (standsFor_of_mem hl he).pos
    have hopen : e.flaw = .openComment := by
      by_contra hopen
      rw [if_neg hopen] at herror
      exact hpos herror.symm
    rw [if_pos hopen] at herror
    rw [hopen] at hreason hreason'
    have hcol : l.token.pos.col ≠ 1 := fun hcol => hpos (by rw [herror, ← hcol])
    -- One of the two is at the token, the other one where the error is.
    have hboth : ∀ d d', d ∈ (parse source).diagnostics → d' ∈ (parse source).diagnostics →
        d.complaint = .illegal Flaw.openComment.reason →
        d'.complaint = .illegal Flaw.openComment.reason →
        d.pos = l.token.pos → d'.pos = e.pos →
        ⟨l.token.pos, .illegal Flaw.openComment.reason⟩ ∈ Parser.findings source ∧
          ∀ d ∈ Parser.findings source, d.pos ≠ ⟨l.token.pos.line, 1⟩ := by
      intro d d' hd hd' hreason hreason' hplace hplace'
      have htoken := mem_findings_of_token hl he hopen hpos hd hreason hplace
      rw [← herror, ← hplace, ← hreason]
      exact ⟨htoken, free_of_error hl he hopen hpos hd' hreason' hplace'⟩
    refine ⟨(Lexed.isOpenComment_iff he).2 hopen, hcol, ?_⟩
    obtain hplace | hplace := hplace <;> obtain hplace' | hplace' := hplace'
    · exact absurd (hplace.trans hplace'.symm) hne
    · exact hboth d d' hd hd' hreason hreason' hplace hplace'
    · exact hboth d' d hd' hd hreason' hreason hplace' hplace
    · exact absurd (hplace.trans hplace'.symm) hne
  · rintro ⟨hopen, hcol, htoken, hfree⟩
    obtain ⟨e, he, hflaw⟩ := (Option.any_eq_true _ _).1 hopen
    have hflaw : e.flaw = .openComment := eq_of_beq hflaw
    have herror := (standsFor_of_mem hl he).pos
    rw [if_pos hflaw] at herror
    rw [← herror] at hfree
    have hmerged := mem_unreported.2 ⟨e, mem_lexErrorsOf.2 ⟨l, hl, he⟩, hfree, rfl⟩
    refine ⟨_, mem_diagnostics.2 (.inl htoken), _, mem_diagnostics.2 (.inr hmerged),
      ⟨e, he, by rw [hflaw], .inl rfl⟩, ⟨e, he, rfl, .inr rfl⟩, fun hsame => hcol ?_⟩
    have hsame : l.token.pos = e.pos := hsame
    rw [hsame, herror]

end Source

/-- The illegal tokens and the lexical errors of a text are one to one and in the same order. They agree
on reason and line, and on the column unless the error is a comment that never ends, whose column is
always taken to be the first, and which is the last error. All lexical errors that are reported are
errors of the text, and wherever there is one something is reported. None is reported at two places,
but for such a comment that starts in another column, if the parser has come by its token and has
found nothing in the first column of the line. -/
theorem lexical_errors_merged (source : String) :
    List.Forall₂ Token.StandsFor ((tokensOf source).filter (·.kind = .illegal))
      (lexErrorsOf source) ∧
    ((lexErrorsOf source).Pairwise fun e _ => e.flaw ≠ .openComment) ∧
    (∀ d ∈ (parse source).diagnostics, ∀ reason, d.complaint = .illegal reason →
      ∃ l ∈ lex source, d.Reports l) ∧
    (∀ e ∈ lexErrorsOf source, ∃ d ∈ (parse source).diagnostics, d.pos = e.pos) ∧
    ∀ l ∈ lex source, ReportedTwice source l ↔
      l.isOpenComment = true ∧ l.token.pos.col ≠ 1 ∧
        ⟨l.token.pos, .illegal Flaw.openComment.reason⟩ ∈ Parser.findings source ∧
        ∀ d ∈ Parser.findings source, d.pos ≠ ⟨l.token.pos.line, 1⟩ := by
  refine ⟨?_, ?_, fun d hd reason => exists_reported hd, fun e => exists_at_error,
    fun l => reportedTwice_iff⟩
  · exact standsFor_of_lexed (Lexer.honest_run _) fun l hl e he => standsFor_of_mem hl he
  · refine List.pairwise_filterMap.2 ((Lexer.last_openComment _).imp ?_)
    intro l l' hlast e he e' he' hopen
    simp [hlast ((Lexed.isOpenComment_iff he).2 hopen)] at he'

/-- A comment that starts in the third column and never ends. -/
def openText : String := "  /* c"

theorem lex_openText : lex openText =
    [⟨⟨.illegal, "/* c", ⟨1, 3⟩, some (.str Flaw.openComment.reason)⟩,
      some ⟨.openComment, ⟨1, 1⟩⟩⟩, Lexer.mark .eof ⟨1, 7⟩] := by
  decide +kernel

theorem findings_openText :
    Parser.findings openText = [⟨⟨1, 3⟩, .illegal Flaw.openComment.reason⟩] := by
  decide +kernel

/-- The error of the comment is not where its token is, and it is reported at both places. -/
theorem not_lexical_errors_merged :
    (¬ ∀ source, List.Forall₂ (fun t e => t.pos = e.pos ∧ t.literal = some (.str e.flaw.reason))
      ((tokensOf source).filter (·.kind = .illegal)) (lexErrorsOf source)) ∧
    ¬ ∀ source, ∀ l ∈ lex source, ¬ ReportedTwice source l := by
  constructor
  · intro h
    have hpairs := h openText
    rw [lexErrorsOf, tokensOf, lex_openText] at hpairs
    simp [Lexer.mark] at hpairs
  · intro h
    refine h openText _ (lex_openText ▸ List.mem_cons_self) ((reportedTwice_iff ?_).2 ?_)
    · exact lex_openText ▸ List.mem_cons_self
    · rw [findings_openText]
      exact ⟨rfl, by decide, List.mem_cons_self, by simp⟩

end Spellbook
