import Spellbook.Proofs.Token.Line

/-! Blocks of lines. The tokens of a text that is laid out in blocks are those of its lines, with
INDENT and DEDENT around each block. Lines without tokens make no difference. -/
namespace Spellbook

/-- A line with its indentation apart. -/
structure Row where
  indent : List Char
  text : List Char

namespace Row

def chars (r : Row) : List Char := r.indent ++ r.text

def width (r : Row) : Nat := Lexer.widthOf r.indent

/-- The tokens that the line has on its own, but for the NEWLINE and EOF at their end. -/
def own (r : Row) : List Token :=
  ((tokensOf (String.ofList r.text)).map Token.bare).dropLast.dropLast

end Row

def Token.isOpening (t : Token) : Bool :=
  t.kind ∈ [.symbol .leftParen, .symbol .leftBracket, .symbol .leftBrace]

def Token.isClosing (t : Token) : Bool :=
  t.kind ∈ [.symbol .rightParen, .symbol .rightBracket, .symbol .rightBrace]

/-- A line that can stand in a block: it starts with a token, its brackets are balanced, and it is
lexed without errors on its own. -/
structure Row.Proper (r : Row) : Prop where
  indent : r.indent.all Lexer.isInlineBlank = true
  first : ∃ c ∈ r.text.head?, Lexer.isInlineBlank c = false
  newline : '\n' ∉ r.text
  comment : CommentFree r.text
  brackets : Accounts Token.isOpening Token.isClosing 0 r.own 0
  errors : lexErrorsOf (String.ofList r.text) = []

instance (r : Row) : Decidable r.Proper :=
  have hfirst : r.text.head?.any (!Lexer.isInlineBlank ·) = true ↔
      ∃ c ∈ r.text.head?, Lexer.isInlineBlank c = false := by
    simp only [Option.any_eq_true, Bool.not_eq_true', Option.mem_def]
  decidable_of_iff
    (r.indent.all Lexer.isInlineBlank = true ∧
      r.text.head?.any (!Lexer.isInlineBlank ·) = true ∧
      '\n' ∉ r.text ∧ CommentFree r.text ∧ Accounts Token.isOpening Token.isClosing 0 r.own 0 ∧
      lexErrorsOf (String.ofList r.text) = [])
    ⟨fun ⟨hi, hf, hn, hc, hb, he⟩ => ⟨hi, hfirst.1 hf, hn, hc, hb, he⟩,
      fun h => ⟨h.indent, hfirst.2 h.first, h.newline, h.comment, h.brackets, h.errors⟩⟩

/-- A block of lines, each with the block below it. -/
inductive Outline where
  | done
  | line (row : Row) (below more : Outline)

namespace Outline

def rows : Outline → List Row
  | done => []
  | line row below more => row :: (below.rows ++ more.rows)

/-- The lines of the block have this width, and those of each block below one of them a greater
width in common. -/
def At : Outline → Nat → Prop
  | done, _ => True
  | line row below more, width =>
    row.Proper ∧ row.width = width ∧ (∃ deeper, width < deeper ∧ below.At deeper) ∧ more.At width

end Outline

def Token.indent : Token := ⟨.indent, "", .start, none⟩

def Token.dedent : Token := ⟨.dedent, "", .start, none⟩

namespace Outline

/-- INDENT and DEDENT around the tokens of a block, unless it is empty. -/
def enclosed (tokens : List Token) : Outline → List Token
  | done => []
  | line .. => .indent :: (tokens ++ [.dedent])

def tokens : Outline → List Token
  | done => []
  | line row below more => row.own ++ .lineEnd :: (below.enclosed below.tokens ++ more.tokens)

end Outline

/-- Blanks only, or a comment up to the end of the line behind them. -/
def IsBlankLine (line : List Char) : Prop :=
  ∃ blanks rest, line = blanks ++ rest ∧ blanks.all Lexer.isInlineBlank = true ∧ '\n' ∉ rest ∧
    (rest = [] ∨ ∃ comment, rest = '/' :: '/' :: comment)

/-- The rows in their order, with lines between them that have no tokens. -/
inductive Padded : List Row → List (List Char) → Prop where
  | nil : Padded [] []
  | row {r : Row} {rows : List Row} {lines : List (List Char)} :
    Padded rows lines → Padded (r :: rows) (r.chars :: lines)
  | blank {line : List Char} {rows : List Row} {lines : List (List Char)} :
    IsBlankLine line → Padded rows lines → Padded rows (line :: lines)

theorem Padded.refl (rows : List Row) : Padded rows (rows.map Row.chars) := by
  induction rows with
  | nil => exact nil
  | cons r rows ih => exact row ih

def joinLines (lines : List (List Char)) : String := String.ofList (['\n'].intercalate lines)

/-! What a width does to the open blocks -/

def Lexed.ok (t : Token) : Lexed := ⟨t, none⟩

/-- The marks that a line of this width is preceded by, and the blocks that are open behind them. -/
def relevel (widths : List Nat) (width : Nat) : List Lexed × List Nat :=
  let applied := Lexer.applyIndent ⟨[], .start, widths, 0, false, false⟩ width
  (applied.1.map Lexed.bare, applied.2.indents)

section relevel

variable {u w v : Nat} {ws : List Nat}

theorem applyIndent_relevel (s : Lexer) (width : Nat) :
    (s.applyIndent width).1.map Lexed.bare = (relevel s.indents width).1 ∧
      (s.applyIndent width).2 = { s with indents := (relevel s.indents width).2 } := by
  have hmark : ∀ kind pos, (Lexer.mark kind pos).bare = (Lexer.mark kind .start).bare :=
    fun _ _ => rfl
  have huneven : ∀ pos, (Lexer.unevenDedent pos).bare = (Lexer.unevenDedent .start).bare :=
    fun _ => rfl
  simp only [relevel, Lexer.applyIndent]
  split
  · simp [hmark .indent]
  · split
    · simp [hmark .dedent]
    · simp [hmark .dedent, huneven]

theorem relevel_same : relevel (w :: ws) w = ([], w :: ws) := by
  simp [relevel, Lexer.applyIndent]

theorem relevel_deeper (h : w < v) : relevel (w :: ws) v = ([.ok .indent], v :: w :: ws) := by
  simp only [relevel, Lexer.applyIndent, List.headD_cons, h, if_true]
  rfl

theorem relevel_shallower (hv : v ≤ w) (hw : w < u) : relevel (u :: w :: ws) v =
    (.ok .dedent :: (relevel (w :: ws) v).1, (relevel (w :: ws) v).2) := by
  have hu : v < u := by omega
  have hle : ((w :: ws).dropWhile (v < ·)).length ≤ (w :: ws).length :=
    (List.dropWhile_suffix _).length_le
  have hcount : (u :: w :: ws).length - ((w :: ws).dropWhile (v < ·)).length =
      ((w :: ws).length - ((w :: ws).dropWhile (v < ·)).length) + 1 := by
    simp only [List.length_cons] at hle ⊢
    omega
  have hbare : (Lexer.mark .dedent ⟨1, v + 1⟩).bare = .ok .dedent := rfl
  have hdrop : (u :: w :: ws).dropWhile (v < ·) = (w :: ws).dropWhile (v < ·) := by
    simp [hu]
  simp only [relevel, Lexer.applyIndent, List.headD_cons, Nat.not_lt.2 hv,
    Nat.not_lt.2 (Nat.le_of_lt hu), if_false, hdrop, hcount, List.replicate_succ, Pos.start]
  split
  · simp [hbare]
  · simp [hbare]

end relevel

/-- The tokens of rows below open blocks of these widths. -/
def layOut (widths : List Nat) : List Row → List Lexed
  | [] => (List.replicate (widths.length - 1) Token.dedent ++ [Token.eof]).map .ok
  | r :: rows => (relevel widths r.width).1 ++ (r.own ++ [Token.lineEnd]).map .ok ++
    layOut (relevel widths r.width).2 rows

/-! Lines of the text -/

def linesAfter (lines : List (List Char)) : List Char := lines.flatMap ('\n' :: ·)

theorem endsLine_linesAfter (lines : List (List Char)) : EndsLine (linesAfter lines) := by
  cases lines with
  | nil => simp [EndsLine, linesAfter]
  | cons line lines => simp [EndsLine, linesAfter]

theorem intercalate_cons (line : List Char) (lines : List (List Char)) :
    ['\n'].intercalate (line :: lines) = line ++ linesAfter lines := by
  induction lines generalizing line with
  | nil => simp [linesAfter]
  | cons next lines ih => simp [linesAfter, ih]

namespace Lexer

/-- The lexer stands at the start of a line, below open blocks of these widths. -/
structure AtLine (s : Lexer) (widths : List Nat) (text : List Char) : Prop where
  fresh : s.fresh = true
  nesting : s.nesting = 0
  hasTokens : s.hasTokens = false
  indents : s.indents = widths
  rest : s.rest = text

theorem AtLine.run {s : Lexer} {widths : List Nat} {text : List Char} (h : s.AtLine widths text) :
    s.run = s.layout.1 ++ s.layout.2.run := by
  refine run_of_step ?_
  simp only [step, h.fresh, h.nesting]
  rfl

theorem layout_row {s : Lexer} {indent : List Char} {c : Char} {cs : List Char}
    (hr : s.rest = indent ++ c :: cs) (hi : indent.all isInlineBlank = true)
    (hb : isInlineBlank c = false) (hn : c ≠ '\n') (hcomment : opensComment (c :: cs) = false) :
    s.layout.1.map Lexed.bare = (relevel s.indents (widthOf indent)).1 ∧
      s.layout.2 = { s with
        rest := c :: cs, pos := s.pos.advance indent, fresh := false,
        indents := (relevel s.indents (widthOf indent)).2 } := by
  have hhead : ∀ d ∈ (c :: cs).head?, isInlineBlank d = false := by simpa using hb
  have htake := Scan.takeWhile_append hi hhead
  have hdrop := Scan.dropWhile_append hi hhead
  have hblank : blankLine (c :: cs) = false := by
    unfold blankLine
    split <;> simp_all [opensComment]
  have hlayout : s.layout =
      (skip { s with fresh := false } indent (c :: cs)).applyIndent (widthOf indent) := by
    simp only [layout, skipBlanks, hr, htake, hdrop, skip, hblank, Bool.false_eq_true, if_false]
    split
    · rename_i heq
      rw [heq] at hcomment
      simp [opensComment] at hcomment
    · rfl
  rw [hlayout]
  exact applyIndent_relevel _ _

theorem layout_blank {s : Lexer} {blanks rest : List Char} (hr : s.rest = blanks ++ rest)
    (hi : blanks.all isInlineBlank = true) (hrest : blankLine rest = true) :
    s.layout = ([], { s with fresh := false }) := by
  have hhead : ∀ d ∈ rest.head?, isInlineBlank d = false := by
    intro d hd
    unfold blankLine at hrest
    split at hrest <;> simp at hd hrest <;> subst hd <;> decide
  simp [layout, skipBlanks, hr, Scan.dropWhile_append hi hhead, skip, hrest]

theorem passes_blanks {s : Lexer} {blanks tail : List Char} (hf : s.fresh = false)
    (hb : blanks.all isInlineBlank = true) (hr : s.rest = blanks ++ tail) :
    ∃ s', s.Passes [] tail [] s' := by
  induction blanks generalizing s with
  | nil => exact ⟨s, rfl, rfl, hf, hr, rfl, rfl, by simp⟩
  | cons c blanks ih =>
    simp only [List.all_cons, Bool.and_eq_true] at hb
    have hrun := run_blank hf hr hb.1
    obtain ⟨s', hs'⟩ := ih (s := s.skip [c] (blanks ++ tail)) hf hb.2 rfl
    exact ⟨s', hrun.trans hs'.run, rfl, hs'.fresh, hs'.rest, hs'.indents, hs'.nesting,
      hs'.hasTokens⟩

theorem passes_comment {s : Lexer} {comment tail : List Char} (hf : s.fresh = false)
    (hn : '\n' ∉ comment) (hend : EndsLine tail) (hr : s.rest = '/' :: '/' :: (comment ++ tail)) :
    ∃ s', s.Passes [] tail [] s' := by
  have hall : comment.all (· != '\n') = true := by
    rw [List.all_eq_true]
    intro c hc
    have hne : c ≠ '\n' := fun h => hn (h ▸ hc)
    simpa using hne
  have hdrop : (comment ++ tail).dropWhile (· != '\n') = tail :=
    Scan.dropWhile_append hall (hend.head (by decide))
  have hskip : s.skipBlanks = s := skipBlanks_eq hr (by decide)
  have hstep : s.step = ([], some
      (s.skip ('/' :: '/' :: (comment ++ tail).takeWhile (· != '\n')) tail)) := by
    simp only [step, hf, Bool.false_and, Bool.false_eq_true, if_false, hskip, hr, hdrop]
  exact ⟨_, run_of_step hstep, rfl, hf, rfl, rfl, rfl, by simp [skip]⟩

end Lexer

theorem IsBlankLine.passes {line tail : List Char} (h : IsBlankLine line) (hend : EndsLine tail)
    {s : Lexer} (hf : s.fresh = false) (hr : s.rest = line ++ tail) :
    ∃ s', s.Passes [] tail [] s' := by
  obtain ⟨blanks, rest, rfl, hblanks, hn, hrest⟩ := h
  rw [List.append_assoc] at hr
  obtain ⟨s₁, hs₁⟩ := Lexer.passes_blanks hf hblanks hr
  obtain rfl | ⟨comment, rfl⟩ := hrest
  · exact ⟨s₁, hs₁⟩
  · have hn' : '\n' ∉ comment := fun hmem => hn (by simp [hmem])
    obtain ⟨s', hs'⟩ := Lexer.passes_comment hs₁.fresh hn' hend hs₁.rest
    refine ⟨s', hs₁.run.trans hs'.run, rfl, hs'.fresh, hs'.rest, ?_, ?_, ?_⟩
    · rw [hs'.indents, hs₁.indents]
    · rw [hs'.nesting, hs₁.nesting]
      rfl
    · rw [hs'.hasTokens, hs₁.hasTokens, Bool.or_assoc]
      rfl

theorem IsBlankLine.layout {line tail : List Char} (h : IsBlankLine line) (hend : EndsLine tail)
    {s : Lexer} (hr : s.rest = line ++ tail) : s.layout = ([], { s with fresh := false }) := by
  obtain ⟨blanks, rest, rfl, hblanks, -, hrest⟩ := h
  rw [List.append_assoc] at hr
  refine Lexer.layout_blank hr hblanks ?_
  obtain rfl | ⟨comment, rfl⟩ := hrest
  · cases tail with
    | nil => rfl
    | cons c tail =>
      obtain rfl : c = '\n' := hend c rfl
      rfl
  · rfl

/-! The tokens of one row -/

theorem nestingAfter_eq (n : Nat) (t : Token) :
    Lexer.nestingAfter n t.kind = n + t.isOpening.toNat - t.isClosing.toNat := by
  obtain ⟨kind, lexeme, pos, literal⟩ := t
  cases kind with
  | symbol s => cases s <;> rfl
  | _ => rfl

theorem Accounts.nesting {ts : List Token} {n k : Nat}
    (h : Accounts Token.isOpening Token.isClosing n ts k) :
    (ts.map (·.kind)).foldl Lexer.nestingAfter n = k := by
  induction ts generalizing n with
  | nil => simpa using h.total
  | cons t ts ih =>
    have hts := (Accounts.cons_iff.1 h).2
    simp [nestingAfter_eq, ih hts]

namespace Lexer

theorem bare_finish (s : Lexer) : s.finish.map Lexed.bare =
    (if s.hasTokens then [Lexed.ok .lineEnd] else []) ++
      (List.replicate (s.indents.length - 1) Token.dedent ++ [Token.eof]).map .ok := by
  have hend : (lineEnd s.pos).bare = .ok .lineEnd := rfl
  have hdedent : (mark .dedent s.pos).bare = .ok .dedent := rfl
  have heof : (mark .eof s.pos).bare = .ok .eof := rfl
  cases hs : s.hasTokens <;> simp [finish, hs, hend, hdedent, heof]

theorem run_row {s : Lexer} {widths : List Nat} {indent text tail : List Char} {ts : List Scan}
    (hs : s.AtLine widths (indent ++ (text ++ tail))) (hi : indent.all isInlineBlank = true)
    (hfirst : ∃ c ∈ text.head?, isInlineBlank c = false) (hfree : CommentFree text)
    (hend : EndsLine tail) (hpass : ∀ s : Lexer, s.fresh = false → s.rest = text ++ tail →
      ∃ found s', s.Passes ts tail found s') :
    ∃ s' : Lexer, s.run.map Lexed.bare =
        (relevel widths (widthOf indent)).1 ++ ts.map Scan.bare ++ s'.run.map Lexed.bare ∧
      s'.fresh = false ∧ s'.rest = tail ∧ s'.indents = (relevel widths (widthOf indent)).2 ∧
      s'.nesting = (ts.map (·.kind)).foldl nestingAfter 0 ∧ s'.hasTokens = !ts.isEmpty := by
  obtain ⟨c, hhead, hc⟩ := hfirst
  obtain ⟨cs, rfl⟩ := List.head?_eq_some_iff.1 hhead
  obtain ⟨hn, hcomment⟩ := hfree.head hc hend
  obtain ⟨hmarks, hnext⟩ := layout_row hs.rest hi hc hn hcomment
  rw [hs.indents] at hmarks hnext
  have hrest : s.layout.2.rest = c :: cs ++ tail := by
    rw [hnext]
    rfl
  obtain ⟨found, s', hs'⟩ := hpass s.layout.2 (layout_fresh s) hrest
  refine ⟨s', ?_, hs'.fresh, hs'.rest, ?_, ?_, ?_⟩
  · rw [hs.run, hs'.run, List.map_append, List.map_append, hs'.found, hmarks, List.append_assoc]
  · rw [hs'.indents, hnext]
  · rw [hs'.nesting, hnext, hs.nesting]
  · rw [hs'.hasTokens, hnext, hs.hasTokens, Bool.false_or]

theorem start_atLine (text : List Char) : (start text).AtLine [0] text :=
  ⟨rfl, rfl, rfl, rfl, rfl⟩

end Lexer

theorem bare_tokensOf (source : String) :
    (tokensOf source).map Token.bare = ((lex source).map Lexed.bare).map (·.token) := by
  simp [tokensOf, Lexed.bare]

theorem lexErrorsOf_eq_nil (source : String) :
    lexErrorsOf source = [] ↔ ∀ l ∈ (lex source).map Lexed.bare, l.error = none := by
  simp [lexErrorsOf, Lexed.bare]

theorem Row.Proper.scans {r : Row} (h : r.Proper) :
    ∃ ts : List Scan, ts ≠ [] ∧ ts.map Scan.bare = r.own.map .ok ∧
      (ts.map (·.kind)).foldl Lexer.nestingAfter 0 = 0 ∧
      ∀ tail, EndsLine tail → ∀ s : Lexer, s.fresh = false → s.rest = r.text ++ tail →
        ∃ found s', s.Passes ts tail found s' := by
  obtain ⟨c, hhead, hc⟩ := h.first
  obtain ⟨ts, hne, hpass⟩ := h.comment.passes
  replace hne : ts ≠ [] := hne c hhead hc
  -- Lexed alone, the line shows which tokens it has and that none of them has a flaw. Only then are
  -- they known to be found in front of other lines too.
  have hend : EndsLine [] := by simp [EndsLine]
  have hstart : (Lexer.start r.text).AtLine [0] ([] ++ (r.text ++ [])) := by
    simpa using Lexer.start_atLine r.text
  obtain ⟨s', hrun, hf, hr, hi, -, ht⟩ :=
    Lexer.run_row hstart rfl h.first h.comment hend (hpass [] hend (.inr rfl))
  have hlex : (lex (String.ofList r.text)).map Lexed.bare =
      ts.map Scan.bare ++ [Lexed.ok .lineEnd, .ok .eof] := by
    have hlevel : relevel [0] (Lexer.widthOf []) = ([], [0]) := relevel_same
    have hhas : s'.hasTokens = true := by simpa [ht] using hne
    rw [hlevel] at hrun hi
    rw [lex, String.toList_ofList, hrun, Lexer.run_finish hf hr, Lexer.bare_finish, hhas, hi]
    rfl
  have hown : r.own = ts.map (·.token .start) := by
    have hlast : [Lexed.ok .lineEnd, .ok .eof].map (·.token) = [Token.lineEnd] ++ [.eof] := rfl
    rw [Row.own, bare_tokensOf, hlex, List.map_append, hlast, ← List.append_assoc,
      List.dropLast_concat, List.dropLast_concat, List.map_map]
    rfl
  have hflaw : ∀ t ∈ ts, t.flaw = none := by
    intro t ht
    have herror := (lexErrorsOf_eq_nil _).1 h.errors t.bare (by
      rw [hlex]
      exact List.mem_append_left _ (List.mem_map_of_mem ht))
    simpa [Scan.bare] using herror
  refine ⟨ts, hne, ?_, ?_, fun tail hend => hpass tail hend (.inl hflaw)⟩
  · rw [hown, List.map_map]
    refine List.map_congr_left fun t ht => ?_
    simp [Scan.bare, hflaw t ht, Lexed.ok]
  · have hnesting := h.brackets.nesting
    rw [hown, List.map_map] at hnesting
    exact hnesting

/-! The rows of a text -/

namespace Lexer

theorem AtLine.run_nil {s : Lexer} {widths : List Nat} (hs : s.AtLine widths []) :
    s.run.map Lexed.bare = layOut widths [] := by
  have hlayout : s.layout = ([], { s with fresh := false }) :=
    layout_blank (hs.rest.trans (List.append_nil []).symm) rfl rfl
  have hrun : s.run = finish { s with fresh := false } := by
    rw [hs.run, hlayout]
    exact run_finish rfl hs.rest
  rw [hrun, bare_finish, hs.indents, hs.hasTokens]
  rfl

theorem run_behind {s : Lexer} {lines : List (List Char)} (hf : s.fresh = false)
    (hn : s.nesting = 0) (hr : s.rest = linesAfter lines) :
    ∃ s' : Lexer, s'.AtLine s.indents (['\n'].intercalate lines) ∧ s.run.map Lexed.bare =
      (if s.hasTokens then [Lexed.ok .lineEnd] else []) ++ s'.run.map Lexed.bare := by
  cases lines with
  | nil =>
    have hline : AtLine { s with fresh := true, hasTokens := false } s.indents [] :=
      ⟨rfl, hn, rfl, rfl, hr⟩
    refine ⟨_, hline, ?_⟩
    rw [hline.run_nil, run_finish hf hr, bare_finish, layOut]
  | cons line lines =>
    have hskip : s.skipBlanks = s := skipBlanks_eq hr (by decide)
    have hstep : s.step = (if s.hasTokens then [lineEnd s.pos] else [],
        some { s.skip ['\n'] (line ++ linesAfter lines) with
          fresh := true
          hasTokens := false }) := by
      simp only [step, hf, Bool.false_and, Bool.false_eq_true, if_false, hskip, hr, hn, linesAfter]
      rfl
    rw [intercalate_cons]
    refine ⟨{ s.skip ['\n'] (line ++ linesAfter lines) with fresh := true, hasTokens := false },
      ⟨rfl, hn, rfl, rfl, rfl⟩, ?_⟩
    rw [run_of_step hstep, List.map_append]
    cases s.hasTokens <;> rfl

end Lexer

theorem run_padded {rows : List Row} {lines : List (List Char)} (h : Padded rows lines)
    (hproper : ∀ r ∈ rows, r.Proper) {s : Lexer} {widths : List Nat}
    (hs : s.AtLine widths (['\n'].intercalate lines)) :
    s.run.map Lexed.bare = layOut widths rows := by
  induction h generalizing s widths with
  | nil => exact hs.run_nil
  | @row r rows lines _ ih =>
    have hr : r.Proper := hproper r List.mem_cons_self
    have hend := endsLine_linesAfter lines
    obtain ⟨ts, hne, hown, hnesting, hpass⟩ := hr.scans
    rw [intercalate_cons, Row.chars, List.append_assoc] at hs
    obtain ⟨s₁, hrun₁, hf₁, hr₁, hi₁, hn₁, ht₁⟩ :=
      Lexer.run_row hs hr.indent hr.first hr.comment hend (hpass _ hend)
    obtain ⟨s₂, hs₂, hrun₂⟩ := Lexer.run_behind hf₁ (hn₁.trans hnesting) hr₁
    have hhas : s₁.hasTokens = true := by simpa [ht₁] using hne
    rw [hi₁] at hs₂
    rw [hrun₁, hrun₂, ih (fun r hr => hproper r (List.mem_cons_of_mem _ hr)) hs₂, hown, hhas]
    simp [layOut, Row.width]
  | @blank line rows lines hline _ ih =>
    have hend := endsLine_linesAfter lines
    rw [intercalate_cons] at hs
    obtain ⟨s₁, hs₁⟩ := hline.passes hend (s := { s with fresh := false }) rfl hs.rest
    have hrun₁ : s.run = s₁.run := by
      rw [hs.run, hline.layout hend hs.rest]
      exact hs₁.run
    obtain ⟨s₂, hs₂, hrun₂⟩ := Lexer.run_behind hs₁.fresh (hs₁.nesting.trans hs.nesting) hs₁.rest
    have hhas : s₁.hasTokens = false := by simpa [hs.hasTokens] using hs₁.hasTokens
    rw [hs₁.indents, hs.indents] at hs₂
    rw [hrun₁, hrun₂, ih hproper hs₂, hhas]
    rfl

/-! Blocks -/

section blocks

variable {u w : Nat} {ws : List Nat} {rows : List Row}

theorem layOut_dedent (hw : w < u) (hrows : ∀ r ∈ rows.head?, r.width ≤ w) :
    layOut (u :: w :: ws) rows = .ok .dedent :: layOut (w :: ws) rows := by
  cases rows with
  | nil => simp [layOut, List.replicate_succ]
  | cons r rows =>
    have hr : r.width ≤ w := hrows r rfl
    simp [layOut, relevel_shallower hr hw]

theorem layOut_indent {r : Row} (hr : w < r.width) :
    layOut (w :: ws) (r :: rows) = .ok .indent :: layOut (r.width :: w :: ws) (r :: rows) := by
  simp [layOut, relevel_deeper hr, relevel_same]

end blocks

namespace Outline

theorem At.head {block : Outline} {w : Nat} (h : block.At w) {rest : List Row}
    (hrest : ∀ r ∈ rest.head?, r.width ≤ w) : ∀ r ∈ (block.rows ++ rest).head?, r.width ≤ w := by
  cases block with
  | done => exact hrest
  | line row below more =>
    have hwidth : row.width = w := h.2.1
    simp [rows, hwidth]

theorem At.layOut_rows {block : Outline} {w : Nat} (h : block.At w) (ws : List Nat)
    (rest : List Row) (hrest : ∀ r ∈ rest.head?, r.width ≤ w) :
    layOut (w :: ws) (block.rows ++ rest) = block.tokens.map .ok ++ layOut (w :: ws) rest := by
  induction block generalizing w ws rest with
  | done => simp [rows, tokens]
  | line row below more ihbelow ihmore =>
    obtain ⟨-, hwidth, ⟨u, hu, hbelow⟩, hmore⟩ := h
    have hbehind := hmore.head hrest
    have hinner := ihbelow hbelow (w :: ws) (more.rows ++ rest) fun r hr =>
      Nat.le_trans (hbehind r hr) (Nat.le_of_lt hu)
    have hblock : layOut (w :: ws) (below.rows ++ (more.rows ++ rest)) =
        (below.enclosed below.tokens).map .ok ++ layOut (w :: ws) (more.rows ++ rest) := by
      cases below with
      | done => rfl
      | line first inner next =>
        obtain rfl : first.width = u := hbelow.2.1
        simp only [rows, List.cons_append] at hinner ⊢
        rw [layOut_indent hu, hinner, layOut_dedent hu hbehind]
        simp [enclosed]
    simp [rows, tokens, layOut, hwidth, relevel_same, hblock, ihmore hmore ws rest hrest]

theorem At.proper {block : Outline} {w : Nat} (h : block.At w) : ∀ r ∈ block.rows, r.Proper := by
  induction block generalizing w with
  | done => simp [rows]
  | line row below more ihbelow ihmore =>
    obtain ⟨hrow, -, ⟨u, -, hbelow⟩, hmore⟩ := h
    intro r hr
    simp only [rows, List.mem_cons, List.mem_append] at hr
    obtain rfl | hr | hr := hr
    · exact hrow
    · exact ihbelow hbelow r hr
    · exact ihmore hmore r hr

theorem At.lex_lines {block : Outline} (h : block.At 0) {lines : List (List Char)}
    (hlines : Padded block.rows lines) :
    (tokensOf (joinLines lines)).map Token.bare = block.tokens ++ [Token.eof] ∧
      lexErrorsOf (joinLines lines) = [] := by
  have hlex : (lex (joinLines lines)).map Lexed.bare = (block.tokens ++ [Token.eof]).map .ok := by
    have hblock := h.layOut_rows [] [] (by simp)
    rw [List.append_nil] at hblock
    rw [lex, joinLines, String.toList_ofList,
      run_padded hlines h.proper (Lexer.start_atLine _), hblock, List.map_append]
    rfl
  constructor
  · rw [bare_tokensOf, hlex, List.map_map]
    exact List.map_id _
  · rw [lexErrorsOf_eq_nil, hlex]
    intro l hl
    obtain ⟨t, -, rfl⟩ := List.mem_map.1 hl
    rfl

end Outline

/-- The tokens of a text laid out in blocks are those of its lines, each with a NEWLINE behind it
and then INDENT and DEDENT around the block below it. There are no errors, and lines without tokens
between the others make no difference. -/
theorem lex_layout {block : Outline} (h : block.At 0) :
    (tokensOf (joinLines (block.rows.map Row.chars))).map Token.bare = block.tokens ++ [.eof] ∧
      lexErrorsOf (joinLines (block.rows.map Row.chars)) = [] ∧
      ∀ lines, Padded block.rows lines →
        (tokensOf (joinLines lines)).map Token.bare =
            (tokensOf (joinLines (block.rows.map Row.chars))).map Token.bare ∧
          lexErrorsOf (joinLines lines) = [] := by
  obtain ⟨htokens, herrors⟩ := h.lex_lines (.refl _)
  refine ⟨htokens, herrors, fun lines hlines => ?_⟩
  obtain ⟨htokens', herrors'⟩ := h.lex_lines hlines
  exact ⟨htokens'.trans htokens.symm, herrors'⟩

/-- Two blocks, the inner one closed together with the outer one. -/
def nested : Outline :=
  .line ⟨[], "if f(a):".toList⟩
    (.line ⟨['\t'], "b = \"//\"".toList⟩ .done
      (.line ⟨[' ', ' ', ' ', ' '], "while c:".toList⟩
        (.line ⟨['\t', ' '], "d".toList⟩ .done .done) .done))
    (.line ⟨[], "e".toList⟩ .done .done)

theorem nested_at : nested.At 0 := by
  refine ⟨by decide +kernel, by decide +kernel, ⟨4, by decide, ?_⟩, ?_⟩
  · refine ⟨by decide +kernel, by decide +kernel, ⟨5, by decide, trivial⟩, ?_⟩
    refine ⟨by decide +kernel, by decide +kernel, ⟨5, by decide, ?_⟩, trivial⟩
    exact ⟨by decide +kernel, by decide +kernel, ⟨6, by decide, trivial⟩, trivial⟩
  · exact ⟨by decide +kernel, by decide +kernel, ⟨1, by decide, trivial⟩, trivial⟩

/-- The same rows with a comment, blanks and an empty line between them. -/
theorem lex_layout_nested : nested.At 0 ∧
    (tokensOf "if f(a):\n // block\n\tb = \"//\"\n    while c:\n\t d\n  \ne\n").map Token.bare =
      nested.tokens ++ [.eof] := by
  have hcomment : IsBlankLine " // block".toList :=
    ⟨[' '], "// block".toList, rfl, rfl, by decide, .inr ⟨_, rfl⟩⟩
  have hblanks : IsBlankLine [' ', ' '] := ⟨[' ', ' '], [], rfl, rfl, by decide, .inl rfl⟩
  have hnil : IsBlankLine [] := ⟨[], [], rfl, rfl, by decide, .inl rfl⟩
  have hpadded : Padded nested.rows _ :=
    .row (.blank hcomment (.row (.row (.row (.blank hblanks (.row (.blank hnil .nil)))))))
  obtain ⟨htokens, -, hlines⟩ := lex_layout nested_at
  exact ⟨nested_at, ((hlines _ hpadded).1).trans htokens⟩

end Spellbook
