import Spellbook.Program.Parser
import Spellbook.Proofs.Token.Errors
import Spellbook.Proofs.Token.Lossless
import Spellbook.Report.Render

/-! Carets and tokens. The lexer counts lines and columns on its way through a text, and a report
splits the text into lines again to show one of them. The two agree: the caret of a report at the
place of a token stands under the first character of that token. -/
namespace Spellbook

namespace Text

/-- What may follow a line: the end of the text, a newline, or a carriage return and a newline. A
carriage return before a newline never belongs to the line. -/
inductive EndsRow (row : List Char) : List Char → Prop where
  | last : EndsRow row []
  | newline {rest : List Char} : row.getLast? ≠ some '\r' → EndsRow row ('\n' :: rest)
  | returned {rest : List Char} : EndsRow row ('\r' :: '\n' :: rest)

/-- A line of a text, without what ends it. It begins with the text or behind a newline. -/
structure Row (text : List Char) (first : Nat) (row : List Char) : Prop where
  begins : first = 0 ∨ text[first - 1]? = some '\n'
  whole : '\n' ∉ row
  ends : ∃ rest, text.drop first = row ++ rest ∧ EndsRow row rest

variable {cs row rest : List Char}

theorem linesOf_append (h : '\n' ∉ row) (line rest : List Char) :
    linesOf line (row ++ rest) = linesOf (line ++ row) rest := by
  induction row generalizing line with
  | nil => simp
  | cons c row ih =>
    obtain ⟨hc, hrow⟩ := not_or.1 (mt List.mem_cons.2 h)
    have hstep : linesOf line (c :: (row ++ rest)) = linesOf (line ++ [c]) (row ++ rest) := by
      rw [linesOf]
      exact fun heq => hc heq.symm
    rw [List.cons_append, hstep, ih hrow, List.append_assoc, List.singleton_append]

theorem linesOf_newline (line rest : List Char) :
    linesOf line ('\n' :: rest) = dropReturn line :: linesOf [] rest := by
  rw [linesOf]

theorem drop_linesOf (line head rest : List Char) :
    (linesOf line (head ++ '\n' :: rest)).drop (head.count '\n' + 1) = linesOf [] rest := by
  induction head generalizing line with
  | nil => simp [linesOf_newline]
  | cons c head ih =>
    by_cases hc : c = '\n'
    · subst hc
      simpa [linesOf_newline] using ih []
    · have hrow : '\n' ∉ [c] := by simpa using fun heq => hc heq.symm
      have hskip := linesOf_append hrow line (head ++ '\n' :: rest)
      simp only [List.singleton_append] at hskip
      rw [List.cons_append, hskip, List.count_cons_of_ne hc]
      exact ih (line ++ [c])

theorem endsRow_dropReturn (line rest : List Char) :
    ∃ ending, line ++ '\n' :: rest = dropReturn line ++ ending ∧
      EndsRow (dropReturn line) ending := by
  unfold dropReturn
  split
  · rename_i hlast
    obtain ⟨short, rfl⟩ := List.getLast?_eq_some_iff.1 hlast
    exact ⟨'\r' :: '\n' :: rest, by simp, .returned⟩
  · rename_i hlast
    exact ⟨'\n' :: rest, rfl, .newline fun h => hlast h⟩

theorem getElem?_dropReturn {i : Nat} {c : Char} (h : cs[i]? = some c) (hc : c ≠ '\r') :
    (dropReturn cs)[i]? = some c := by
  unfold dropReturn
  split
  · rename_i hlast
    obtain ⟨short, rfl⟩ := List.getLast?_eq_some_iff.1 hlast
    rw [List.dropLast_concat]
    by_cases hi : i < short.length
    · rwa [List.getElem?_append_left hi] at h
    · rw [List.getElem?_append_right (Nat.le_of_not_lt hi)] at h
      exact absurd (List.mem_singleton.1 (List.mem_of_getElem? h)) hc
  · exact h

theorem row_linesOf (hcs : cs ≠ []) (hnone : '\n' ∉ cs)
    (hrest : rest = [] ∨ ∃ more, rest = '\n' :: more) :
    ∃ row ending, (linesOf [] (cs ++ rest))[0]? = some row ∧ cs ++ rest = row ++ ending ∧
      '\n' ∉ row ∧ EndsRow row ending ∧
        ∀ (i : Nat) (c : Char), cs[i]? = some c → c ≠ '\r' → row[i]? = some c := by
  have happend := linesOf_append hnone [] rest
  rw [List.nil_append] at happend
  rw [happend]
  obtain rfl | ⟨more, rfl⟩ := hrest
  · refine ⟨cs, [], ?_, rfl, hnone, .last, fun i c h _ => h⟩
    cases cs with
    | nil => exact absurd rfl hcs
    | cons => rfl
  · obtain ⟨ending, hending, hends⟩ := endsRow_dropReturn cs more
    refine ⟨dropReturn cs, ending, by simp [linesOf_newline], hending, ?_, hends,
      fun i c h hc => getElem?_dropReturn h hc⟩
    intro hmem
    unfold dropReturn at hmem
    split at hmem
    · exact hnone (List.dropLast_subset _ hmem)
    · exact hnone hmem

theorem span_newline (cs : List Char) :
    ∃ rest, cs = cs.takeWhile (· != '\n') ++ rest ∧ '\n' ∉ cs.takeWhile (· != '\n') ∧
      (rest = [] ∨ ∃ more, rest = '\n' :: more) := by
  refine ⟨cs.dropWhile (· != '\n'), List.takeWhile_append_dropWhile.symm, fun hmem => ?_, ?_⟩
  · have hall := List.all_eq_true.1 (List.all_takeWhile (p := (· != '\n'))) _ hmem
    simp at hall
  · have hhead := List.head?_dropWhile_not (· != '\n') cs
    cases hdrop : cs.dropWhile (· != '\n') with
    | nil => exact .inl rfl
    | cons c more =>
      rw [hdrop] at hhead
      obtain rfl : c = '\n' := by simpa using hhead
      exact .inr ⟨more, rfl⟩

theorem span_newline_reverse (cs : List Char) :
    ∃ ended part, cs = ended ++ part ∧ '\n' ∉ part ∧
      part.length = (cs.reverse.takeWhile (· != '\n')).length ∧
      (ended = [] ∨ ∃ lines, ended = lines ++ ['\n']) := by
  obtain ⟨rest, hcs, hpart, hrest⟩ := span_newline cs.reverse
  refine ⟨rest.reverse, (cs.reverse.takeWhile (· != '\n')).reverse, ?_, by rwa [List.mem_reverse],
    List.length_reverse, ?_⟩
  · rw [← List.reverse_append, ← hcs, List.reverse_reverse]
  · obtain rfl | ⟨more, rfl⟩ := hrest
    · exact .inl rfl
    · exact .inr ⟨more.reverse, List.reverse_cons⟩

/-- The line that holds a character is found by counting the newlines before it, and the character
in the line by counting what is behind the last of them. -/
theorem exists_row {text : List Char} {offset : Nat} {c : Char} (h : text[offset]? = some c)
    (hnewline : c ≠ '\n') (hreturn : c ≠ '\r') :
    ∃ first row, Row text first row ∧
      offset = first + ((text.take offset).reverse.takeWhile (· != '\n')).length ∧
      (linesOf [] text)[(text.take offset).count '\n']? = some row ∧
      row[offset - first]? = some c := by
  obtain ⟨hlt, hget⟩ := List.getElem?_eq_some_iff.1 h
  have hdrop : text.drop offset = c :: text.drop (offset + 1) := by
    rw [List.drop_eq_getElem_cons hlt, hget]
  obtain ⟨ended, part, hbefore, hpart, hlength, hended⟩ :=
    span_newline_reverse (text.take offset)
  obtain ⟨rest, hbehind, htail, hrest⟩ := span_newline (text.drop (offset + 1))
  generalize (text.drop (offset + 1)).takeWhile (· != '\n') = tail at hbehind htail
  have htext : text = ended ++ (part ++ c :: tail ++ rest) := by
    calc
      text = text.take offset ++ text.drop offset := (List.take_append_drop offset text).symm
      _ = ended ++ (part ++ c :: tail ++ rest) := by rw [hbefore, hdrop, hbehind]; simp
  have hoffset : offset = ended.length + part.length := by
    have htake := congrArg List.length hbefore
    rwa [List.length_take_of_le (Nat.le_of_lt hlt), List.length_append] at htake
  have hline : '\n' ∉ part ++ c :: tail := by
    simp only [List.mem_append, List.mem_cons, not_or]
    exact ⟨hpart, fun heq => hnewline heq.symm, htail⟩
  obtain ⟨row, ending, hfirst, heq, hwhole, hends, hkept⟩ := row_linesOf (by simp) hline hrest
  refine ⟨ended.length, row, ⟨?_, hwhole, ending, ?_, hends⟩, by rw [← hlength, hoffset], ?_, ?_⟩
  · obtain rfl | ⟨lines, rfl⟩ := hended
    · exact .inl rfl
    · exact .inr (by simp [htext])
  · rw [htext, List.drop_left]
    exact heq
  · rw [hbefore, List.count_append, List.count_eq_zero_of_not_mem hpart, Nat.add_zero, htext]
    obtain rfl | ⟨lines, rfl⟩ := hended
    · exact hfirst
    · have hlines := drop_linesOf [] lines (part ++ c :: tail ++ rest)
      have hat := congrArg (fun ls : List (List Char) => ls[0]?) hlines
      simp only [List.getElem?_drop, Nat.add_zero] at hat
      simpa using hat.trans hfirst
  · refine hkept _ _ ?_ hreturn
    rw [hoffset, Nat.add_sub_cancel_left]
    simp

end Text

/-! The first character of a token -/

/-- The token is a piece of the text that is not the end of a line or of the text. -/
def Token.isShown (t : Token) : Bool :=
  t.isWritten && !(t.kind == .newline || t.kind == .eof)

/-- The token begins with a character that stays in its line. -/
def Token.Begins (t : Token) : Prop :=
  t.isShown = true → ∃ c, t.lexeme.toList.head? = some c ∧ c ≠ '\n' ∧ c ≠ '\r'

theorem Token.begins_of_hidden {t : Token} (h : t.isShown = false) : t.Begins := fun hshown => by
  rw [h] at hshown
  cases hshown

theorem head?_scan (c : Char) (cs : List Char) : (scan c cs).text.head? = some c := by
  have htext := scan_text c cs
  cases hscan : (scan c cs).text with
  | nil => exact absurd hscan (scan_text_ne_nil c cs)
  | cons d more =>
    rw [hscan] at htext
    exact congrArg some (List.cons.inj htext).1

namespace Lexer

variable {s : Lexer} {l : Lexed}

theorem head_skipBlanks {c : Char} {cs : List Char} (h : s.skipBlanks.rest = c :: cs) :
    c ≠ '\r' := by
  have hhead := List.head?_dropWhile_not isInlineBlank s.rest
  simp only [skipBlanks, skip] at h
  rw [h] at hhead
  rintro rfl
  simp [isInlineBlank, indentWidth?] at hhead

theorem Finds.begins (h : s.Finds l) : l.token.Begins := by
  cases h with
  | lineEnd | indent | dedent => exact Token.begins_of_hidden rfl
  | uneven =>
    exact Token.begins_of_hidden (by simp [Token.isShown, Token.isWritten, Token.isUneven,
      unevenDedent])
  | openComment => exact fun _ => ⟨'/', by simp [Lexer.openComment]⟩
  | token hrest hc =>
    exact fun _ => ⟨_, by simpa [place] using head?_scan _ _, hc, head_skipBlanks hrest⟩

theorem begins_run (s : Lexer) : ∀ l ∈ s.run, l.token.Begins := by
  intro l hl
  obtain ⟨m, -, hm | rfl⟩ := mem_run hl
  · exact hm.begins
  · exact Token.begins_of_hidden rfl

end Lexer

theorem Token.SitsAt.first {text : List Char} {t : Token} {span : Stretch}
    (h : t.SitsAt text span) (hshown : t.isShown = true) {c : Char}
    (hc : t.lexeme.toList.head? = some c) : text[span.first]? = some c := by
  have hslice : text.extract span.first span.behind = t.lexeme.toList := by
    have hslice := h.slice
    split at hslice
    · rename_i hkind
      simp [Token.isShown, hkind] at hshown
    · rename_i hkind
      simp [Token.isShown, hkind] at hshown
    · exact hslice
  rw [← hslice, List.extract_eq_take_drop] at hc
  obtain ⟨more, hmore⟩ := List.head?_eq_some_iff.1 hc
  have hfirst := congrArg (·[0]?) hmore
  simp only [List.getElem?_take, List.getElem?_drop] at hfirst
  split at hfirst
  · simpa using hfirst
  · cases hfirst

/-! The excerpt of a report -/

/-- Three lines of a report: a margin, a line of the source behind a gutter, and a caret that is
indented, with what is said about it. -/
structure Excerpt where
  margin : List Char
  gutter : List Char
  row : List Char
  indent : List Char
  said : List Char

namespace Excerpt

def text (e : Excerpt) : List Char :=
  e.margin ++ '\n' :: (e.gutter ++ e.row) ++ '\n' :: (e.indent ++ '^' :: e.said) ++ ['\n']

/-- The excerpt shows the line with this number, and its caret is under the character `column` of
the line. -/
structure Marks (e : Excerpt) (number column : Nat) : Prop where
  gutter : e.gutter = ' ' :: (toString number).toList ++ [' ', '|', ' ']
  margin : '\n' ∉ e.margin
  shown : '\n' ∉ e.gutter ++ e.row
  indent : '\n' ∉ e.indent ∧ '^' ∉ e.indent
  under : e.indent.length = e.gutter.length + column

end Excerpt

theorem newline_not_mem_toString (n : Nat) : '\n' ∉ (toString n).toList := by
  intro hmem
  have hdigit := List.all_eq_true.1 (Number.all_isDigit_toDigits n) '\n'
    (by rwa [← Nat.toList_repr])
  simp [Number.isDigit] at hdigit

namespace Report

theorem excerpt_marks {source : String} {span : Span} {before : Nat} {row : List Char}
    (hline : span.start.line = 1 + before)
    (hrow : (Text.linesOf [] source.toList)[before]? = some row) (hwhole : '\n' ∉ row)
    (hwidth : span.width = 1) :
    ∃ e : Excerpt, e.row = row ∧ e.Marks span.start.line (span.start.col - 1) ∧
      (excerpt source span '^').toList = e.text := by
  have hshown : (Text.lines source)[span.start.line - 1]? = some (String.ofList row) := by
    rw [hline, Nat.add_sub_cancel_left, Text.lines, List.getElem?_map, hrow]
    rfl
  have hpositive : span.start.line ≠ 0 := by omega
  have hdigits := newline_not_mem_toString span.start.line
  obtain ⟨number, hnumber⟩ : ∃ number, toString span.start.line = number := ⟨_, rfl⟩
  rw [hnumber] at hdigits
  let blanks := List.replicate (number.length + 1) ' '
  let said := span.label.elim [] fun label => ' ' :: label.toList
  refine ⟨⟨blanks ++ [' ', '|'], ' ' :: number.toList ++ [' ', '|', ' '], row,
    blanks ++ [' ', '|', ' '] ++ List.replicate (span.start.col - 1) ' ', said⟩, rfl, ?_, ?_⟩
  · constructor
    · rw [hnumber]
    · simp [blanks]
    · simp [hdigits, hwhole]
    · simp [blanks]
    · simp [blanks, ← String.length_toList]
      omega
  · simp only [excerpt, hshown, hpositive, if_false, ln, hwidth, hnumber, blanks, said]
    cases span.label <;> simp [Excerpt.text, Text.padLeft, Text.repeated]

/-- The report marks one column, at a place of the text it is shown with. -/
structure PointsAt (r : Report) (source : String) (pos : Pos) : Prop where
  primary : ∃ p, r.primary = some p ∧ p.start.line = pos.line ∧ p.start.col = pos.col ∧
    p.width = 1
  text : r.source = none ∨ r.source = some source

theorem pointsAt_pointAt {r : Report} (hsource : r.source = none) (source : String)
    (file : Option String) {pos : Pos} (hpos : 0 < pos.line) :
    (r.pointAt ⟨file, pos.line, pos.col⟩).PointsAt source pos := by
  have hknown : Location.isKnown ⟨file, pos.line, pos.col⟩ = true := by
    simpa [Location.isKnown] using hpos
  simp only [pointAt, hknown, if_true]
  exact ⟨⟨_, rfl, rfl, rfl, by simp [Span.width, Span.point]⟩, .inl hsource⟩

theorem pointsAt_ofDiagnostic (source : String) (file : Option String) {d : Diagnostic}
    (hpos : 0 < d.pos.line) : (ofDiagnostic file d).PointsAt source d.pos := by
  have hplain : (plain .syntactic "SyntaxError" d.complaint.message).source = none := rfl
  obtain ⟨hprimary, htext⟩ := pointsAt_pointAt hplain source file hpos
  exact ⟨hprimary, htext⟩

theorem render_excerpt {r : Report} {source : String} {p : Span} (hprimary : r.primary = some p)
    (htext : r.source = none ∨ r.source = some source) :
    ∃ before, before ++ ['\n'] ++ (excerpt source p '^').toList <+:
      (r.render (some source)).toList := by
  have hsource : sourceFor r.source (some ⟨p.start.file, source⟩) p = some source := by
    obtain h | h := htext <;> simp [h, sourceFor]
  obtain ⟨category, title, message, severity, primary, labels, suggestions, notes, related, cause,
    stack, own⟩ := r
  obtain rfl : primary = some p := hprimary
  simp only at hsource
  simp only [render, Option.bind_some, Option.map_some, renderWith, hsource, excerpts, ln,
    String.toList_append, List.append_assoc]
  refine ⟨(severity.text ++ "[" ++ category.code ++ "]: " ++ title ++ "\n").toList ++
    ("  --> " ++ address p.start).toList, ?_⟩
  simp only [String.toList_append, List.append_assoc, List.prefix_append_right_inj]
  exact List.prefix_append _ _

/-- The rendered text has an excerpt with the line that holds the offset, and its caret is under the
character at the offset, with which the token begins. -/
def Marks (rendered : String) (source : List Char) (t : Token) (offset : Nat) : Prop :=
  ∃ (before after : List Char) (e : Excerpt) (first : Nat),
    rendered.toList = before ++ ['\n'] ++ e.text ++ after ∧ Text.Row source first e.row ∧
      first ≤ offset ∧ e.Marks t.pos.line (offset - first) ∧
      ∃ c, t.lexeme.toList.head? = some c ∧ (e.gutter ++ e.row)[e.indent.length]? = some c

theorem marks_of_sitsAt {source : String} {t : Token} {span : Stretch}
    (hsits : t.SitsAt source.toList span) (hbegins : t.Begins) (hshown : t.isShown = true)
    {r : Report} (hr : r.PointsAt source t.pos) :
    Marks (r.render (some source)) source.toList t span.first := by
  obtain ⟨c, hc, hnewline, hreturn⟩ := hbegins hshown
  have hfirst := hsits.first hshown hc
  obtain ⟨first, row, hrow, hoffset, hline, hat⟩ := Text.exists_row hfirst hnewline hreturn
  obtain ⟨p, hprimary, hpline, hpcol, hwidth⟩ := hr.primary
  have hplace := hsits.place
  obtain ⟨e, rfl, hmarks, htext⟩ := excerpt_marks
    (hpline.trans (congrArg Pos.line hplace)) hline hrow.whole hwidth
  obtain ⟨before, after, hrender⟩ := render_excerpt hprimary hr.text
  have hcolumn : p.start.col - 1 = span.first - first := by
    rw [hpcol, hplace]
    simp only [Pos.ofOffset]
    omega
  rw [hpline, hcolumn] at hmarks
  refine ⟨before, after, e, first, by rw [← hrender, htext], hrow, by omega, hmarks, c, hc, ?_⟩
  rw [hmarks.under, List.getElem?_append_right (Nat.le_add_right _ _), Nat.add_sub_cancel_left]
  exact hat

end Report

/-- Carets point at tokens. The tokens that are pieces of the text sit at stretches of it, with
blanks and comments between them. A report of one column at the place of such a token, shown with
the text, has an excerpt whose middle line is the line of the text that holds the token, and whose
caret is under the first character of its lexeme. -/
theorem carets_mark_tokens (source : String) : ∃ spans : List Stretch,
    Spaced source.toList 0 spans source.toList.length ∧
      List.Forall₂ (fun t span => t.SitsAt source.toList span ∧
        (t.kind ∉ [.newline, .eof] → ∀ r : Report, r.PointsAt source t.pos →
          Report.Marks (r.render (some source)) source.toList t span.first))
        ((tokensOf source).filter Token.isWritten) spans := by
  obtain ⟨spans, hsits, hspaced⟩ := (Lexer.At.start source.toList).run
  have hbegins : ∀ t ∈ (tokensOf source).filter Token.isWritten,
      t.isWritten = true ∧ t.Begins := by
    intro t ht
    obtain ⟨hmem, hwritten⟩ := List.mem_filter.1 ht
    obtain ⟨l, hl, rfl⟩ := List.mem_map.1 hmem
    exact ⟨hwritten, Lexer.begins_run _ l hl⟩
  refine ⟨spans, hspaced, ((List.forall₂_and_left _ _).2 ⟨hbegins, hsits⟩).imp ?_⟩
  rintro t span ⟨⟨hwritten, hbegins⟩, hsits⟩
  refine ⟨hsits, fun hkind r hr => Report.marks_of_sitsAt hsits hbegins ?_ hr⟩
  simpa [Token.isShown, hwritten] using hkind

def valueless : String := "ab = 1\r\nab = )\r\n"

/-- The caret of what the parser has to say of it is under the token that is no value. -/
theorem carets_mark_valueless : ∃ d ∈ (parse valueless).diagnostics, ∃ t ∈ tokensOf valueless,
    t.lexeme = ")" ∧ ∃ offset,
      Report.Marks ((Report.ofDiagnostic none d).render (some valueless)) valueless.toList t
        offset := by
  obtain ⟨d, hd, hpos⟩ : ∃ d ∈ (parse valueless).diagnostics, d.pos = ⟨2, 6⟩ :=
    ⟨⟨⟨2, 6⟩, .noExpression (.symbol .rightParen)⟩, by decide +kernel, rfl⟩
  obtain ⟨spans, -, hmarks⟩ := carets_mark_tokens valueless
  obtain ⟨hlength, hat⟩ := List.forall₂_iff_get.1 hmarks
  have htoken : ∃ h : 6 < ((tokensOf valueless).filter Token.isWritten).length,
      let t := ((tokensOf valueless).filter Token.isWritten).get ⟨6, h⟩
      t.lexeme = ")" ∧ t.pos = ⟨2, 6⟩ ∧ t.kind ∉ [.newline, .eof] := by
    decide +kernel
  obtain ⟨h, hlexeme, hplace, hkind⟩ := htoken
  refine ⟨d, hd, _, (List.mem_filter.1 (List.get_mem _ ⟨6, h⟩)).1, hlexeme, _,
    (hat 6 h (hlength ▸ h)).2 hkind _ ?_⟩
  rw [hplace, ← hpos]
  exact Report.pointsAt_ofDiagnostic valueless none (hpos ▸ Nat.zero_lt_two)

-- A line that ends with a carriage return and a newline is shown without both.
example :
    ((Report.plain .syntactic "SyntaxError" "m").pointAt ⟨none, 2, 3⟩).render (some "a\r\n  b\n") =
      "error[SYNTAX_ERROR]: SyntaxError\n  --> <input>:2:3\n   |\n 2 |   b\n   |   ^\n   = m\n" := by
  decide

end Spellbook
