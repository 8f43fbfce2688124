import Spellbook.Proofs.Token.Bodies

/-! Lines of nothing but comments. With one block comment at most such a line may be taken out of a
text, and the tokens stay the same. From the second block comment on it counts as a line of its
width, which may open and close blocks. -/
namespace Spellbook

/-- What stands between the ends of a block comment on one line. -/
structure IsCommentBody (body : List Char) : Prop where
  newline : '\n' ∉ body
  inside : ¬ ['*', '/'] <:+: body ++ ['*']

/-- Blanks and `n` block comments. -/
inductive Comments : Nat → List Char → Prop where
  | nil : Comments 0 []
  | blank {n : Nat} {c : Char} {cs : List Char} : Lexer.isInlineBlank c = true → Comments n cs →
    Comments n (c :: cs)
  | block {n : Nat} {body cs : List Char} : IsCommentBody body → Comments n cs →
    Comments (n + 1) ('/' :: '*' :: (body ++ '*' :: '/' :: cs))

/-- Blanks and `n` block comments, or a comment up to the end of the line behind them. -/
def IsCommentLine (n : Nat) (line : List Char) : Prop :=
  ∃ comments rest, line = comments ++ rest ∧ Comments n comments ∧ '\n' ∉ rest ∧
    (rest = [] ∨ ∃ text, rest = '/' :: '/' :: text)

/-- The tokens of the lines of a text below open blocks of these widths. -/
def linesBelow (widths : List Nat) (text : List Char) : List Lexed :=
  (Lexer.run ⟨text, .start, widths, 0, true, false⟩).map Lexed.bare

/-- The marks that are found on a line of `n` block comments, and the blocks that are open behind
it. -/
def commentLevel (n : Nat) (widths : List Nat) (width : Nat) : List Lexed × List Nat :=
  if n ≤ 1 then ([], widths) else relevel widths width

theorem commentLevel_same {n width : Nat} {widths : List Nat} (hstacked : Stacked widths)
    (h : n ≤ 1 ∨ width = widths.headD 0) : commentLevel n widths width = ([], widths) := by
  by_cases hn : n ≤ 1
  · exact if_pos hn
  · cases widths with
    | nil => cases hstacked.last
    | cons w ws =>
      obtain rfl : width = w := h.resolve_left hn
      rw [commentLevel, if_neg hn, relevel_same]

variable {n : Nat} {body cs comments line tail : List Char}

theorem IsCommentBody.of_cons {c : Char} (h : IsCommentBody (c :: body)) : IsCommentBody body where
  newline hmem := h.newline (List.mem_cons_of_mem c hmem)
  inside hin := h.inside (hin.trans (List.suffix_cons c _).isInfix)

theorem IsCommentBody.commentBody_eq (h : IsCommentBody body) (cs : List Char) :
    Lexer.commentBody (body ++ '*' :: '/' :: cs) = (body ++ ['*', '/'], some cs) := by
  induction body with
  | nil => rfl
  | cons c body ih =>
    rw [List.cons_append, Lexer.commentBody.eq_3, ih h.of_cons]
    · rfl
    · -- The comment would be closed here already.
      rintro more rfl hmore
      cases body with
      | nil => simp at hmore
      | cons d body =>
        obtain ⟨rfl, -⟩ := List.cons.inj hmore
        exact h.inside ⟨[], body ++ ['*'], by simp⟩

theorem Comments.split (h : Comments (n + 1) comments) : ∃ blanks body more,
    comments = blanks ++ '/' :: '*' :: (body ++ '*' :: '/' :: more) ∧
      blanks.all Lexer.isInlineBlank = true ∧ IsCommentBody body ∧ Comments n more := by
  generalize hn : n + 1 = k at h
  induction h with
  | nil => cases hn
  | @blank _ c _ hc _ ih =>
    obtain ⟨blanks, body, more, rfl, hblanks, hbody, hmore⟩ := ih hn
    exact ⟨c :: blanks, body, more, rfl, by simp [hc, hblanks], hbody, hmore⟩
  | @block _ body cs hbody hcs _ =>
    obtain rfl := Nat.succ.inj hn
    exact ⟨[], body, cs, rfl, rfl, hbody, hcs⟩

theorem Comments.blanks (h : Comments 0 comments) : comments.all Lexer.isInlineBlank = true := by
  generalize hn : 0 = k at h
  induction h with
  | nil => rfl
  | blank hc _ ih => simp [hc, ih hn]
  | block _ _ _ => cases hn

theorem IsCommentLine.isBlankLine (h : IsCommentLine 0 line) : IsBlankLine line := by
  obtain ⟨comments, rest, rfl, hcomments, hn, hrest⟩ := h
  exact ⟨comments, rest, rfl, hcomments.blanks, hn, hrest⟩

theorem IsCommentLine.split (h : IsCommentLine (n + 1) line) : ∃ blanks body more,
    line = blanks ++ '/' :: '*' :: (body ++ '*' :: '/' :: more) ∧
      blanks.all Lexer.isInlineBlank = true ∧ IsCommentBody body ∧ IsCommentLine n more := by
  obtain ⟨comments, rest, rfl, hcomments, hn, hrest⟩ := h
  obtain ⟨blanks, body, more, rfl, hblanks, hbody, hmore⟩ := hcomments.split
  exact ⟨blanks, body, more ++ rest, by simp, hblanks, hbody, more, rest, rfl, hmore, hn, hrest⟩

/-- A further comment is what keeps the rest of a line from being blank. -/
theorem IsCommentLine.blankLine_eq (h : IsCommentLine n line) (hend : EndsLine tail) :
    Lexer.blankLine ((line ++ tail).dropWhile Lexer.isInlineBlank) = decide (n = 0) := by
  cases n with
  | zero =>
    obtain ⟨blanks, rest, rfl, hblanks, -, hrest⟩ := h.isBlankLine
    obtain rfl | ⟨text, rfl⟩ := hrest
    · rw [List.append_nil, Scan.dropWhile_append hblanks (hend.head (by decide))]
      cases tail with
      | nil => rfl
      | cons c tail =>
        obtain rfl : c = '\n' := hend c rfl
        rfl
    · rw [List.append_assoc, Scan.dropWhile_append hblanks]
      · rfl
      · simp
        decide
  | succ n =>
    obtain ⟨blanks, body, more, rfl, hblanks, -⟩ := h.split
    rw [List.append_assoc, Scan.dropWhile_append hblanks]
    · simp [Lexer.blankLine]
    · simp
      decide

namespace Lexer

variable {s s' m : Lexer} {widths : List Nat} {mid : List Char}

/-! On the line -/

theorem Passes.trans_quiet (h : s.Passes [] mid [] m) (h' : m.Passes [] tail [] s') :
    s.Passes [] tail [] s' where
  run := h.run.trans h'.run
  found := rfl
  fresh := h'.fresh
  rest := h'.rest
  indents := h'.indents.trans h.indents
  nesting := h'.nesting.trans h.nesting
  hasTokens := by simp [h'.hasTokens, h.hasTokens]

theorem passes_block (hbody : IsCommentBody body) (hf : s.fresh = false)
    (hr : s.rest = '/' :: '*' :: (body ++ '*' :: '/' :: tail)) : ∃ s', s.Passes [] tail [] s' := by
  have hskip : s.skipBlanks = s := skipBlanks_eq hr (by decide)
  have hmove := Move.blockComment (s := s) (by rw [hskip, hr]) (hbody.commentBody_eq tail)
  have hstep := hmove.step_eq (by simp [atStart, hf])
  exact ⟨_, run_of_step hstep, rfl, hf, rfl, rfl, rfl, by simp [skip, skipBlanks]⟩

theorem passes_comments (h : Comments n comments) (hf : s.fresh = false)
    (hr : s.rest = comments ++ tail) : ∃ s', s.Passes [] tail [] s' := by
  induction h generalizing s with
  | nil => exact ⟨s, rfl, rfl, hf, hr, rfl, rfl, by simp⟩
  | @blank _ c cs hc _ ih =>
    have hrest : s.rest = [c] ++ (cs ++ tail) := hr
    obtain ⟨m, hm⟩ := passes_blanks hf (by simp [hc]) hrest
    obtain ⟨s', hs'⟩ := ih hm.fresh hm.rest
    exact ⟨s', hm.trans_quiet hs'⟩
  | @block _ body cs hbody _ ih =>
    have hrest : s.rest = '/' :: '*' :: (body ++ '*' :: '/' :: (cs ++ tail)) := by simp [hr]
    obtain ⟨m, hm⟩ := passes_block hbody hf hrest
    obtain ⟨s', hs'⟩ := ih hm.fresh hm.rest
    exact ⟨s', hm.trans_quiet hs'⟩

theorem passes_commentLine (h : IsCommentLine n line) (hend : EndsLine tail) (hf : s.fresh = false)
    (hr : s.rest = line ++ tail) : ∃ s', s.Passes [] tail [] s' := by
  obtain ⟨comments, rest, rfl, hcomments, hn, hrest⟩ := h
  have hblank : IsBlankLine rest := ⟨[], rest, rfl, rfl, hn, hrest⟩
  have hrest' : s.rest = comments ++ (rest ++ tail) := by simp [hr]
  obtain ⟨m, hm⟩ := passes_comments hcomments hf hrest'
  obtain ⟨s', hs'⟩ := hblank.passes hend hm.fresh hm.rest
  exact ⟨s', hm.trans_quiet hs'⟩

theorem layout_commentLine (h : IsCommentLine n line) (hend : EndsLine tail)
    (hr : s.rest = line ++ tail) : ∃ k more, IsCommentLine k more ∧
      s.layout.1.map Lexed.bare =
        (commentLevel n s.indents (widthOf (line.takeWhile isInlineBlank))).1 ∧
      s.layout.2.fresh = false ∧ s.layout.2.rest = more ++ tail ∧
      s.layout.2.nesting = s.nesting ∧ s.layout.2.hasTokens = s.hasTokens ∧
      s.layout.2.indents =
        (commentLevel n s.indents (widthOf (line.takeWhile isInlineBlank))).2 := by
  cases n with
  | zero =>
    rw [h.isBlankLine.layout hend hr]
    exact ⟨0, line, h, rfl, rfl, hr, rfl, rfl, rfl⟩
  | succ n =>
    obtain ⟨blanks, body, more, rfl, hblanks, hbody, hmore⟩ := h.split
    have hslash : ∀ c ∈ ('/' :: '*' :: (body ++ '*' :: '/' :: more)).head?,
        isInlineBlank c = false := by
      simp
      decide
    have hrest : s.rest = blanks ++ '/' :: '*' :: (body ++ '*' :: '/' :: (more ++ tail)) := by
      simp [hr]
    have hwidth : s.rest.takeWhile isInlineBlank = blanks := by
      rw [hrest]
      exact Scan.takeWhile_append hblanks hslash
    have hskip : s.skipBlanks.rest = '/' :: '*' :: (body ++ '*' :: '/' :: (more ++ tail)) := by
      rw [skipBlanks, hrest]
      exact Scan.dropWhile_append hblanks hslash
    rw [Scan.takeWhile_append hblanks hslash]
    have hbehind := hmore.blankLine_eq hend
    refine ⟨n, more, hmore, ?_⟩
    cases n with
    | zero =>
      have hlook := Look.comment hskip (hbody.commentBody_eq (more ++ tail)) hbehind
      rw [hlook.layout_eq]
      exact ⟨rfl, rfl, rfl, rfl, rfl, rfl⟩
    | succ n =>
      have hlook := Look.behind hskip (hbody.commentBody_eq (more ++ tail)) hbehind rfl
      obtain ⟨hmarks, hnext⟩ := applyIndent_relevel { s.skipBlanks.skip
        ('/' :: '*' :: (body ++ ['*', '/'])) (more ++ tail) with fresh := false } (widthOf blanks)
      rw [hwidth] at hlook
      rw [hlook.layout_eq, hmarks, hnext]
      exact ⟨rfl, rfl, rfl, rfl, rfl, rfl⟩

/-! Behind the line -/

theorem AtLine.bare_run {text : List Char} (h : s.AtLine widths text) :
    s.run.map Lexed.bare = linesBelow widths text := by
  rw [← bare_run_relocate s .start]
  obtain ⟨rest, pos, indents, nesting, fresh, hasTokens⟩ := s
  obtain ⟨rfl, rfl, rfl, rfl, rfl⟩ := h
  rfl

/-- At the end of a line without tokens the lines below it come next. -/
theorem bare_run_endsLine (hend : EndsLine tail) (hf : s.fresh = false) (hn : s.nesting = 0)
    (ht : s.hasTokens = false) (hr : s.rest = tail) :
    s.run.map Lexed.bare = linesBelow s.indents (tail.drop 1) := by
  cases tail with
  | nil =>
    have hline : AtLine ⟨[], .start, s.indents, 0, true, false⟩ s.indents [] :=
      ⟨rfl, rfl, rfl, rfl, rfl⟩
    rw [List.drop_nil, ← hline.bare_run, hline.run_nil, run_finish hf hr, bare_finish, ht]
    rfl
  | cons c below =>
    obtain rfl : c = '\n' := hend c rfl
    have hskip : s.skipBlanks = s := skipBlanks_eq hr (by decide)
    have hmove := Move.newline (s := s) (by rw [hskip, hr]) hn
    rw [run_of_step (hmove.step_eq (by simp [atStart, hf])), ht]
    apply AtLine.bare_run
    exact ⟨rfl, hn, rfl, rfl, rfl⟩

theorem AtLine.bare_run_comments (h : s.AtLine widths (line ++ tail)) (hline : IsCommentLine n line)
    (hend : EndsLine tail) : s.run.map Lexed.bare =
      (commentLevel n widths (widthOf (line.takeWhile isInlineBlank))).1 ++
        linesBelow (commentLevel n widths (widthOf (line.takeWhile isInlineBlank))).2
          (tail.drop 1) := by
  obtain ⟨k, more, hmore, hmarks, hf, hr, hn, ht, hi⟩ := layout_commentLine hline hend h.rest
  obtain ⟨m, hm⟩ := passes_commentLine hmore hend hf hr
  have hn' : m.nesting = 0 := hm.nesting.trans (hn.trans h.nesting)
  have ht' : m.hasTokens = false := by
    rw [hm.hasTokens, ht, h.hasTokens]
    rfl
  have hbelow := bare_run_endsLine hend hm.fresh hn' ht' hm.rest
  rw [h.indents] at hmarks hi
  rw [h.run, List.map_append, hmarks, hm.run, List.nil_append, hbelow, hm.indents, hi]

/-! Up to the line -/

theorem Reached.fresh_cases {source : String} (h : Reached source s) (hf : s.fresh = true) :
    s = Lexer.start source.toList ∨ ∃ m, Reached source m ∧ m.fresh = false ∧ m.nesting = 0 ∧
      m.skipBlanks.rest = '\n' :: s.rest ∧
      s = { m.skipBlanks.skip ['\n'] s.rest with fresh := true, hasTokens := false } := by
  induction h with
  | start => exact .inl rfl
  | @step m s found hm hstep ih =>
    cases hstart : m.atStart with
    | true =>
      rw [step_look hstart] at hstep
      simp only [Prod.mk.injEq, Option.some.injEq] at hstep
      rw [← hstep.2, layout_fresh] at hf
      cases hf
    | false =>
      -- A lexer that is fresh is outside of brackets, so it looks at the line first.
      have hnot : m.fresh = false := by
        cases hm' : m.fresh with
        | false => rfl
        | true =>
          have hn : m.nesting = 0 := by
            obtain rfl | ⟨m', -, -, hn, -, heq⟩ := ih hm'
            · rfl
            · rw [heq]
              exact hn
          simp [atStart, hm', hn] at hstart
      obtain ⟨-, hend⟩ | ⟨found', next, hnext, hmove⟩ := step_moves hstart
      · simp [hend] at hstep
      · obtain ⟨-, rfl⟩ : found' = found ∧ next = s := by simpa [hnext] using hstep
        cases hmove with
        | newline hr hn => exact .inr ⟨m, hm, hnot, hn, hr, rfl⟩
        | _ => cases hnot.symm.trans hf

/-- The text below a line start makes no difference to the tokens above it. -/
theorem Reached.line_swap {source source' : String} {above below : List Char}
    (h : Reached source s) (hf : s.fresh = true) (hs : source.toList = above ++ s.rest)
    (hs' : source'.toList = above ++ below) : ∃ before : List Lexed,
      lex source = before ++ s.run ∧ lex source' = before ++ (s.withRest below).run := by
  obtain rfl | ⟨m, hm, hfresh, hn, hr, hnext⟩ := h.fresh_cases hf
  · obtain rfl : above = [] := List.append_left_eq_self.1 hs.symm
    exact ⟨[], rfl, by rw [lex, hs']; rfl⟩
  · obtain ⟨head, htext, -⟩ := (within_of_reached hm).skipBlanks
    rw [hr] at htext
    obtain rfl : above = head ++ ['\n'] := by
      have heq : above ++ s.rest = head ++ ['\n'] ++ s.rest := by
        rw [← hs, htext, List.append_assoc]
        rfl
      exact List.append_cancel_right heq
    have htext' : source'.toList = head ++ '\n' :: below := by simp [hs']
    obtain ⟨rest, before, hlex, hlex', hskip, -⟩ :=
      hm.swap_here separates_newline htext htext' hr
    have hmove := Move.newline hr hn
    have hnewline : (m.withRest rest).skipBlanks.rest = '\n' :: below := by
      rw [hskip]
      rfl
    have hmove' := Move.newline hnewline hn
    have hm' : m.atStart = false := by simp [atStart, hfresh]
    rw [← hnext] at hmove
    rw [hskip] at hmove'
    refine ⟨before ++ (if m.hasTokens then [lineEnd m.skipBlanks.pos] else []), ?_, ?_⟩
    · rw [hlex, run_of_step (hmove.step_eq hm'), List.append_assoc]
    · rw [hlex', run_of_step (hmove'.step_eq (s := m.withRest rest) hm'), List.append_assoc, hnext]
      rfl

end Lexer

/-- A line of one block comment at most may be taken out of a text, and so may a line of more if it is
as wide as the innermost open block. Otherwise its marks are found as well, and the blocks that it
leaves open are those that the lines below start from. -/
theorem comment_line_vanishes {source source' : String} {above line tail : List Char} {s : Lexer}
    {widths : List Nat} {n : Nat} (hs : Lexer.Reached source s)
    (hl : s.AtLine widths (line ++ tail)) (hline : IsCommentLine n line) (hend : EndsLine tail)
    (htext : source.toList = above ++ (line ++ tail))
    (htext' : source'.toList = above ++ tail.drop 1) :
    (n ≤ 1 ∨ Lexer.widthOf (line.takeWhile Lexer.isInlineBlank) = widths.headD 0 →
      (lex source).map Lexed.bare = (lex source').map Lexed.bare) ∧
    (2 ≤ n → ∃ before,
      (lex source').map Lexed.bare = before ++ linesBelow widths (tail.drop 1) ∧
      (lex source).map Lexed.bare = before ++
        ((relevel widths (Lexer.widthOf (line.takeWhile Lexer.isInlineBlank))).1 ++
          linesBelow (relevel widths (Lexer.widthOf (line.takeWhile Lexer.isInlineBlank))).2
            (tail.drop 1))) := by
  obtain ⟨before, hlex, hlex'⟩ := hs.line_swap hl.fresh (hl.rest.symm ▸ htext) htext'
  have hbelow : (s.withRest (tail.drop 1)).AtLine widths (tail.drop 1) :=
    ⟨hl.fresh, hl.nesting, hl.hasTokens, hl.indents, rfl⟩
  rw [hlex, hlex', List.map_append, List.map_append, hbelow.bare_run,
    hl.bare_run_comments hline hend]
  refine ⟨fun h => ?_, fun h => ?_⟩
  · have hstacked : Stacked widths := hl.indents ▸ hs.stacked
    rw [commentLevel_same hstacked h]
    rfl
  · refine ⟨before.map Lexed.bare, rfl, ?_⟩
    rw [commentLevel, if_neg (by omega)]

def secondLine (source : String) : Lexer := (Lexer.start source.toList).next.next.next

theorem reached_secondLine (source : String) : (secondLine source).Reached source :=
  Lexer.Reached.start.next.next.next

instance (s : Lexer) (widths : List Nat) (text : List Char) : Decidable (s.AtLine widths text) :=
  decidable_of_iff (s.fresh = true ∧ s.nesting = 0 ∧ s.hasTokens = false ∧ s.indents = widths ∧
      s.rest = text)
    ⟨fun h => ⟨h.1, h.2.1, h.2.2.1, h.2.2.2.1, h.2.2.2.2⟩,
      fun h => ⟨h.fresh, h.nesting, h.hasTokens, h.indents, h.rest⟩⟩

/-- A line that is deeper than the lines around it, of a block comment and a line comment. -/
theorem comment_line_vanishes_deeper :
    (lex "a\n  /* c */ // d\nb\n").map Lexed.bare = (lex "a\nb\n").map Lexed.bare := by
  have hbody : IsCommentBody [' ', 'c', ' '] := ⟨by decide, by decide⟩
  have hline : IsCommentLine 1 "  /* c */ // d".toList :=
    ⟨"  /* c */ ".toList, "// d".toList, rfl,
      .blank rfl (.blank rfl (.block hbody (.blank rfl .nil))), by decide, .inr ⟨" d".toList, rfl⟩⟩
  have hend : EndsLine "\nb\n".toList := by
    rintro c ⟨⟩
    rfl
  have hat : (secondLine "a\n  /* c */ // d\nb\n").AtLine [0]
      ("  /* c */ // d".toList ++ "\nb\n".toList) := by decide +kernel
  have htext : "a\n  /* c */ // d\nb\n".toList =
      "a\n".toList ++ ("  /* c */ // d".toList ++ "\nb\n".toList) := by decide +kernel
  exact (comment_line_vanishes (reached_secondLine _) hat hline hend htext (by decide +kernel)).1
    (.inl (by decide))

/-- A line of two block comments opens a block. -/
theorem not_comment_line_vanishes : ¬ ∀ (source source' : String) (above line tail : List Char)
    (s : Lexer) (widths : List Nat) (n : Nat), Lexer.Reached source s →
    s.AtLine widths (line ++ tail) → IsCommentLine n line → EndsLine tail →
    source.toList = above ++ (line ++ tail) → source'.toList = above ++ tail.drop 1 →
    (lex source).map Lexed.bare = (lex source').map Lexed.bare := by
  intro hall
  have hfirst : IsCommentBody [' ', 'c', ' '] := ⟨by decide, by decide⟩
  have hsecond : IsCommentBody [' ', 'd', ' '] := ⟨by decide, by decide⟩
  have hline : IsCommentLine 2 "  /* c */ /* d */".toList :=
    ⟨"  /* c */ /* d */".toList, [], rfl,
      .blank rfl (.blank rfl (.block hfirst (.blank rfl (.block hsecond .nil)))), by decide,
      .inl rfl⟩
  have hend : EndsLine "\nb\n".toList := by
    rintro c ⟨⟩
    rfl
  have hsame := hall "a\n  /* c */ /* d */\nb\n" "a\nb\n" "a\n".toList "  /* c */ /* d */".toList
    "\nb\n".toList _ [0] 2 (reached_secondLine _) (by decide +kernel) hline hend
    (by decide +kernel) (by decide +kernel)
  exact absurd hsame (by decide +kernel)

end Spellbook
