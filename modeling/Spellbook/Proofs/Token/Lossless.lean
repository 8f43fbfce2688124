import Mathlib.Data.List.Forall2
import Mathlib.Data.List.Induction
import Spellbook.Proofs.Token.Line
import Spellbook.Proofs.Token.Spans

/-! Nothing of a text is lost between its tokens. Every token but those of the block structure is a
piece of the text, the pieces follow each other, and between them are blanks and comments only. -/
namespace Spellbook

/-- The place of an offset. Lines are counted by the newlines before it, and columns by the
characters since the last of them. -/
def Pos.ofOffset (text : List Char) (offset : Nat) : Pos :=
  ⟨1 + (text.take offset).count '\n',
    1 + ((text.take offset).reverse.takeWhile (· != '\n')).length⟩

theorem Pos.advance_start (before : List Char) :
    Pos.start.advance before =
      ⟨1 + before.count '\n', 1 + (before.reverse.takeWhile (· != '\n')).length⟩ := by
  induction before using List.reverseRecOn with
  | nil => rfl
  | append_singleton before c ih =>
    rw [Pos.advance_append, ih]
    by_cases hc : c = '\n'
    · simp [Pos.advance, Pos.after, hc, Nat.add_assoc]
    · simp [Pos.advance, Pos.after, hc]
      omega

/-- From `text` to `rest` there are only blanks, line ends and comments. A comment behind `//` goes
on to the end of its line, and any other to the first `*/`. -/
inductive Skips : List Char → List Char → Prop where
  | done {text : List Char} : Skips text text
  | blank {c : Char} {text rest : List Char} :
    c ∈ [' ', '\t', '\r', '\n'] → Skips text rest → Skips (c :: text) rest
  | line {comment text rest : List Char} : '\n' ∉ comment → EndsLine text → Skips text rest →
    Skips ('/' :: '/' :: (comment ++ text)) rest
  | block {comment text rest : List Char} : ¬ ['*', '/'] <:+: comment → Skips text rest →
    Skips ('/' :: '*' :: (comment ++ '*' :: '/' :: text)) rest

namespace Skips

variable {text mid rest : List Char}

theorem trans (h : Skips text mid) (h' : Skips mid rest) : Skips text rest := by
  induction h with
  | done => exact h'
  | blank hc _ ih => exact .blank hc (ih h')
  | line hn he _ ih => exact .line hn he (ih h')
  | block hb _ ih => exact .block hb (ih h')

theorem blanks (text : List Char) : Skips text (text.dropWhile Lexer.isInlineBlank) := by
  induction text with
  | nil => exact .done
  | cons c text ih =>
    by_cases hc : Lexer.isInlineBlank c = true
    · have hmem : c ∈ [' ', '\t', '\r', '\n'] := by
        by_contra hnone
        simp only [List.mem_cons, List.not_mem_nil, or_false, not_or] at hnone
        rw [Lexer.isInlineBlank_of_ne hnone.1 hnone.2.1 hnone.2.2.1] at hc
        cases hc
      simpa [hc] using blank hmem ih
    · simpa [hc] using done

theorem lineComment (cs : List Char) :
    Skips ('/' :: '/' :: cs) (cs.dropWhile (· != '\n')) := by
  have hnone : '\n' ∉ cs.takeWhile (· != '\n') := fun h => by
    have hall := List.all_eq_true.1 (List.all_takeWhile (p := (· != '\n')) (l := cs)) _ h
    simp at hall
  have hend : EndsLine (cs.dropWhile (· != '\n')) := by
    intro c hc
    have hhead := List.head?_dropWhile_not (· != '\n') cs
    rw [hc] at hhead
    simpa using hhead
  have hskip := line hnone hend .done
  rwa [List.takeWhile_append_dropWhile] at hskip

theorem commentBody {cs taken rest : List Char}
    (h : Lexer.commentBody cs = (taken, some rest)) :
    ∃ comment, taken = comment ++ ['*', '/'] ∧ ¬ ['*', '/'] <:+: comment := by
  fun_induction Lexer.commentBody cs generalizing taken rest with
  | case1 => simp at h
  | case2 cs =>
    obtain ⟨rfl, -⟩ : ['*', '/'] = taken ∧ _ := by simpa using h
    exact ⟨[], rfl, by simp⟩
  | case3 c cs hclose text rest' hbody ih =>
    obtain ⟨rfl, rfl⟩ : c :: text = taken ∧ rest' = some rest := by simpa using h
    obtain ⟨comment, rfl, hcomment⟩ := ih hbody
    refine ⟨c :: comment, rfl, fun hinfix => ?_⟩
    -- The comment would end at its first two characters, and the body goes on over them.
    obtain hprefix | hinfix := List.infix_cons_iff.1 hinfix
    · obtain ⟨more, hmore⟩ := hprefix
      have hcs := Lexer.commentBody_text cs
      rw [hbody] at hcs
      simp only [List.cons_append, List.nil_append, List.cons.injEq] at hmore
      exact hclose (more ++ (['*', '/'] ++ rest)) hmore.1.symm (by simp [← hcs, ← hmore.2])
    · exact hcomment hinfix

theorem blockComment {cs taken rest : List Char}
    (h : Lexer.commentBody cs = (taken, some rest)) : Skips ('/' :: '*' :: cs) rest := by
  obtain ⟨comment, rfl, hcomment⟩ := commentBody h
  have hcs := Lexer.commentBody_text cs
  rw [h] at hcs
  have hskip : Skips ('/' :: '*' :: (comment ++ '*' :: '/' :: rest)) rest := block hcomment .done
  simpa [← hcs] using hskip

end Skips

/-- A stretch of a text from an offset up to another. -/
structure Stretch where
  first : Nat
  behind : Nat

/-- The token is a piece of the text. It is of the block structure otherwise, which has no text. -/
def Token.isWritten (t : Token) : Bool :=
  !(t.kind == .indent || t.kind == .dedent || t.isUneven)

theorem Lexed.Plain.isWritten {l : Lexed} (h : l.Plain) : l.token.isWritten = true := by
  have hopens := h.opens
  have hcloses := h.closes
  simp only [Token.opens, Token.closes, Bool.or_eq_false_iff] at hopens hcloses
  simp [Token.isWritten, hopens, hcloses]

/-- The token stands for the stretch of the text, and has its place. A line ends with a newline or
where the text ends. -/
structure Token.SitsAt (text : List Char) (t : Token) (span : Stretch) : Prop where
  place : t.pos = Pos.ofOffset text span.first
  slice : match t.kind with
    | .newline => text.extract span.first span.behind = ['\n'] ∨
        span.first = text.length ∧ span.behind = text.length
    | .eof => span.first = text.length ∧ span.behind = text.length
    | _ => text.extract span.first span.behind = t.lexeme.toList

/-- The stretches follow each other between two offsets, with blanks and comments around them. -/
def Spaced (text : List Char) (offset : Nat) : List Stretch → Nat → Prop
  | [], last => offset ≤ last ∧ Skips (text.drop offset) (text.drop last)
  | span :: more, last =>
    offset ≤ span.first ∧ Skips (text.drop offset) (text.drop span.first) ∧
      span.first ≤ span.behind ∧ Spaced text span.behind more last

theorem Spaced.before {text : List Char} {offset mid last : Nat} {spans : List Stretch}
    (hle : offset ≤ mid) (hskip : Skips (text.drop offset) (text.drop mid))
    (h : Spaced text mid spans last) : Spaced text offset spans last := by
  cases spans with
  | nil => exact ⟨Nat.le_trans hle h.1, hskip.trans h.2⟩
  | cons span more => exact ⟨Nat.le_trans hle h.1, hskip.trans h.2.1, h.2.2⟩

theorem Spaced.append {text : List Char} {offset mid last : Nat} {spans more : List Stretch}
    (h : Spaced text offset spans mid) (h' : Spaced text mid more last) :
    Spaced text offset (spans ++ more) last := by
  induction spans generalizing offset with
  | nil => exact h'.before h.1 h.2
  | cons span spans ih => exact ⟨h.1, h.2.1, h.2.2.1, ih h.2.2.2⟩

/-- The tokens account for the text between two offsets. -/
def Tells (text : List Char) (offset : Nat) (tokens : List Token) (last : Nat) : Prop :=
  ∃ spans, List.Forall₂ (Token.SitsAt text) (tokens.filter Token.isWritten) spans ∧
    Spaced text offset spans last

namespace Tells

variable {text : List Char} {offset mid last : Nat} {tokens more : List Token} {t : Token}

theorem append (h : Tells text offset tokens mid) (h' : Tells text mid more last) :
    Tells text offset (tokens ++ more) last := by
  obtain ⟨spans, hsits, hspaced⟩ := h
  obtain ⟨spans', hsits', hspaced'⟩ := h'
  refine ⟨spans ++ spans', ?_, hspaced.append hspaced'⟩
  rw [List.filter_append]
  exact List.rel_append hsits hsits'

theorem skipped (hle : offset ≤ last) (h : Skips (text.drop offset) (text.drop last)) :
    Tells text offset [] last :=
  ⟨[], .nil, hle, h⟩

theorem unwritten (h : ∀ t ∈ tokens, t.isWritten = false) : Tells text offset tokens offset := by
  refine ⟨[], ?_, Nat.le_refl _, .done⟩
  rw [List.filter_eq_nil_iff.2 fun t ht => by simp [h t ht]]
  exact .nil

theorem one (hle : offset ≤ last) (h : t.SitsAt text ⟨offset, last⟩) (ht : t.isWritten = true) :
    Tells text offset [t] last := by
  refine ⟨[⟨offset, last⟩], ?_, Nat.le_refl _, .done, hle, Nat.le_refl _, .done⟩
  simpa [ht] using h

end Tells

theorem scan_kind (c : Char) (cs : List Char) : (scan c cs).kind ∉ [.newline, .eof] := by
  have hstring : ∀ (kind : Kind) (opening : List Char) (q : Char) (cs : List Char),
      kind ∉ [.newline, .eof] → (Scan.string kind opening q cs).kind ∉ [.newline, .eof] := by
    intro kind opening q cs hkind
    simp only [Scan.string, Scan.Body.toScan]
    split <;> split <;> simp_all
  simp only [scan]
  split
  · exact hstring _ _ _ _ (by simp)
  · split
    · exact hstring _ _ _ _ (by simp)
    · split
      · simp
      · split
        · simp only [Scan.number]
          split
          · split <;> simp
          · simp
        · split
          · simp only [Scan.word]
            split <;> simp
          · split <;> simp [Scan.unexpected]

namespace Lexer

/-- The lexer is at an offset of the text, and has its place. -/
structure At (text : List Char) (offset : Nat) (s : Lexer) : Prop where
  le : offset ≤ text.length
  rest : text.drop offset = s.rest
  pos : s.pos = Pos.ofOffset text offset

namespace At

variable {text : List Char} {offset : Nat} {s : Lexer}

theorem start (text : List Char) : At text 0 (start text) := ⟨Nat.zero_le _, rfl, rfl⟩

theorem skip (h : s.At text offset) {taken rest : List Char} (hrest : s.rest = taken ++ rest) :
    (s.skip taken rest).At text (offset + taken.length) := by
  have htext : text = text.take offset ++ (taken ++ rest) := by
    rw [← hrest, ← h.rest, List.take_append_drop]
  have hlength : (text.take offset).length = offset := List.length_take_of_le h.le
  have htake : text.take (offset + taken.length) = text.take offset ++ taken := by
    conv_lhs => rw [htext]
    rw [List.take_append, List.take_of_length_le (by omega)]
    simp [hlength]
  refine ⟨?_, ?_, ?_⟩
  · have hall := congrArg List.length htext
    simp only [List.length_append, hlength] at hall
    omega
  · rw [← List.drop_drop, h.rest, hrest]
    simp [Lexer.skip]
  · simp only [Lexer.skip, h.pos, Pos.ofOffset, htake, ← Pos.advance_start, Pos.advance_append]

theorem skipBlanks (h : s.At text offset) :
    ∃ behind, offset ≤ behind ∧ Skips (text.drop offset) (text.drop behind) ∧
      s.skipBlanks.At text behind := by
  have hat := h.skip (List.takeWhile_append_dropWhile (p := isInlineBlank) (l := s.rest)).symm
  refine ⟨_, Nat.le_add_right _ _, ?_, hat⟩
  rw [hat.rest, h.rest]
  exact .blanks s.rest

theorem extract (h : s.At text offset) {taken rest : List Char} (hrest : s.rest = taken ++ rest) :
    text.extract offset (offset + taken.length) = taken := by
  simp [List.extract_eq_take_drop, h.rest, hrest]

theorem stays (h : s.At text offset) {s' : Lexer} (hrest : s'.rest = s.rest)
    (hpos : s'.pos = s.pos) : s'.At text offset :=
  ⟨h.le, hrest ▸ h.rest, hpos ▸ h.pos⟩

theorem eq_length (h : s.At text offset) (hrest : s.rest = []) : offset = text.length := by
  have hdrop := h.rest
  rw [hrest, List.drop_eq_nil_iff] at hdrop
  have hle := h.le
  omega

theorem sitsAt (h : s.At text offset) {taken rest : List Char} (hrest : s.rest = taken ++ rest)
    {t : Token} (hpos : t.pos = s.pos) (hkind : t.kind ∉ [.newline, .eof])
    (hlexeme : t.lexeme = String.ofList taken) :
    t.SitsAt text ⟨offset, offset + taken.length⟩ := by
  have hslice := h.extract hrest
  simp only [List.mem_cons, List.not_mem_nil, or_false, not_or] at hkind
  refine ⟨hpos.trans h.pos, ?_⟩
  split
  · exact absurd ‹_› hkind.1
  · exact absurd ‹_› hkind.2
  · simpa [hlexeme] using hslice

theorem skips (h : s.At text offset) {taken rest : List Char} (hrest : s.rest = taken ++ rest)
    (hskip : Skips s.rest rest) : Tells text offset [] (offset + taken.length) := by
  have hbehind := (h.skip hrest).rest
  refine .skipped (Nat.le_add_right _ _) ?_
  rwa [h.rest, hbehind]

theorem newline (h : s.At text offset) {cs : List Char} (hrest : s.rest = '\n' :: cs) :
    Tells text offset [(lineEnd s.pos).token] (offset + 1) := by
  have hline : s.rest = ['\n'] ++ cs := hrest
  have hslice := h.extract hline
  exact .one (Nat.le_add_right _ _) ⟨h.pos, .inl hslice⟩ rfl

theorem openComment (h : s.At text offset) {cs comment : List Char}
    (hrest : s.rest = '/' :: '*' :: cs) (hbody : commentBody cs = (comment, none)) :
    ∃ behind, Tells text offset [(s.openComment ('/' :: '*' :: comment)).token] behind ∧
      (s.skip ('/' :: '*' :: comment) []).At text behind := by
  have hcs := commentBody_text cs
  rw [hbody] at hcs
  have hall : s.rest = '/' :: '*' :: comment ++ [] := by simpa [← hcs] using hrest
  exact ⟨_, .one (Nat.le_add_right _ _) (h.sitsAt hall rfl (by simp [Lexer.openComment]) rfl)
    (plain_openComment _ _).isWritten, h.skip hall⟩

theorem blockComment (h : s.At text offset) {cs comment rest : List Char}
    (hrest : s.rest = '/' :: '*' :: cs) (hbody : commentBody cs = (comment, some rest)) :
    ∃ behind, Tells text offset [] behind ∧
      (s.skip ('/' :: '*' :: comment) rest).At text behind := by
  have hcs := commentBody_text cs
  rw [hbody] at hcs
  have hall : s.rest = '/' :: '*' :: comment ++ rest := by simpa [← hcs] using hrest
  exact ⟨_, h.skips hall (hrest ▸ .blockComment hbody), h.skip hall⟩

theorem lineComment (h : s.At text offset) {cs : List Char} (hrest : s.rest = '/' :: '/' :: cs) :
    ∃ behind, Tells text offset [] behind ∧
      (s.skip ('/' :: '/' :: cs.takeWhile (· != '\n')) (cs.dropWhile (· != '\n'))).At
        text behind := by
  have hall : s.rest =
      '/' :: '/' :: cs.takeWhile (· != '\n') ++ cs.dropWhile (· != '\n') := by
    simpa [List.takeWhile_append_dropWhile] using hrest
  exact ⟨_, h.skips hall (hrest ▸ .lineComment cs), h.skip hall⟩

theorem scan (h : s.At text offset) {c : Char} {cs : List Char} (hrest : s.rest = c :: cs) :
    ∃ behind, Tells text offset [(s.place (Spellbook.scan c cs)).token] behind ∧
      (s.skip (Spellbook.scan c cs).text (Spellbook.scan c cs).rest).At text behind := by
  have hall : s.rest = (Spellbook.scan c cs).text ++ (Spellbook.scan c cs).rest :=
    hrest.trans (scan_text c cs).symm
  exact ⟨_, .one (Nat.le_add_right _ _) (h.sitsAt hall rfl (scan_kind c cs) rfl)
    (plain_place s c cs).isWritten, h.skip hall⟩

theorem finish (h : s.At text offset) (hrest : s.rest = []) :
    Tells text offset (s.finish.map (·.token)) text.length := by
  obtain rfl := h.eq_length hrest
  have hline : Tells text text.length
      ((if s.hasTokens then [lineEnd s.pos] else []).map (·.token)) text.length := by
    split
    · exact .one (Nat.le_refl _) ⟨h.pos, .inr ⟨rfl, rfl⟩⟩ rfl
    · exact .unwritten (by simp)
  have hclosed : Tells text text.length
      ((List.replicate (s.indents.length - 1) (mark .dedent s.pos)).map (·.token))
        text.length := by
    refine .unwritten fun t ht => ?_
    rw [List.map_replicate] at ht
    rw [List.eq_of_mem_replicate ht]
    rfl
  have hend : Tells text text.length [(mark .eof s.pos).token] text.length :=
    .one (Nat.le_refl _) ⟨h.pos, rfl, rfl⟩ rfl
  simpa [Lexer.finish] using (hline.append hclosed).append hend

theorem applyIndent (h : s.At text offset) (width : Nat) :
    Tells text offset ((s.applyIndent width).1.map (·.token)) offset ∧
      (s.applyIndent width).2.At text offset := by
  have hclosed : ∀ n pos, ∀ t ∈ (List.replicate n (mark .dedent pos)).map (·.token),
      t.isWritten = false := by
    intro n pos t ht
    rw [List.map_replicate] at ht
    rw [List.eq_of_mem_replicate ht]
    rfl
  have huneven : ∀ pos, (unevenDedent pos).token.isWritten = false := fun pos => by
    simp [Token.isWritten, Token.isUneven, unevenDedent]
  simp only [Lexer.applyIndent]
  split
  · exact ⟨.unwritten (by simp [mark, Token.isWritten]), h.stays rfl rfl⟩
  · split
    · exact ⟨.unwritten (hclosed _ _), h.stays rfl rfl⟩
    · rw [List.map_append]
      exact ⟨(Tells.unwritten (hclosed _ _)).append (.unwritten (by simp [huneven])),
        h.stays rfl rfl⟩

theorem look (h : s.At text offset) {found : List Lexed} {next : Lexer} (hlook : Look s found next) :
    ∃ behind, Tells text offset (found.map (·.token)) behind ∧ next.At text behind := by
  obtain ⟨inside, hle, hblanks, hat⟩ := h.skipBlanks
  have hskipped : Tells text offset [] inside := .skipped hle hblanks
  cases hlook with
  | blank => exact ⟨offset, .unwritten (by simp), h.stays rfl rfl⟩
  | openComment hr hbody =>
    obtain ⟨behind, htells, hbehind⟩ := hat.openComment hr hbody
    exact ⟨behind, hskipped.append htells, hbehind.stays rfl rfl⟩
  | comment hr hbody =>
    obtain ⟨behind, htells, hbehind⟩ := hat.blockComment hr hbody
    exact ⟨behind, hskipped.append htells, hbehind.stays rfl rfl⟩
  | @behind _ _ _ m hr hbody _ hm =>
    obtain ⟨behind, htells, hbehind⟩ := hat.blockComment hr hbody
    have hline : m.At text behind := by
      rw [hm]
      exact hbehind.stays rfl rfl
    obtain ⟨hwidth, hnext⟩ := hline.applyIndent (widthOf (s.rest.takeWhile isInlineBlank))
    exact ⟨behind, (hskipped.append htells).append hwidth, hnext⟩
  | @row m _ _ hm =>
    have hline : m.At text inside := by
      rw [hm]
      exact hat.stays rfl rfl
    obtain ⟨hwidth, hnext⟩ := hline.applyIndent (widthOf (s.rest.takeWhile isInlineBlank))
    exact ⟨inside, hskipped.append hwidth, hnext⟩

theorem move (h : s.At text offset) {found : List Lexed} {next : Lexer} (hmove : Move s found next) :
    ∃ behind, Tells text offset (found.map (·.token)) behind ∧ next.At text behind := by
  obtain ⟨inside, hle, hblanks, hat⟩ := h.skipBlanks
  have hskipped : Tells text offset [] inside := .skipped hle hblanks
  have hnewline : ∀ {cs}, s.skipBlanks.rest = '\n' :: cs → Tells text inside [] (inside + 1) ∧
      (s.skipBlanks.skip ['\n'] cs).At text (inside + 1) := fun {cs} hr =>
    have hline : s.skipBlanks.rest = ['\n'] ++ cs := hr
    ⟨hat.skips hline (hr ▸ .blank (by simp) .done), hat.skip hline⟩
  cases hmove with
  | inside hr =>
    obtain ⟨hpassed, hnext⟩ := hnewline hr
    exact ⟨_, hskipped.append hpassed, hnext⟩
  | newline hr =>
    obtain ⟨hpassed, hnext⟩ := hnewline hr
    refine ⟨inside + 1, hskipped.append ?_, hnext.stays rfl rfl⟩
    split
    · exact hat.newline hr
    · exact hpassed
  | lineComment hr =>
    obtain ⟨behind, htells, hnext⟩ := hat.lineComment hr
    exact ⟨behind, hskipped.append htells, hnext⟩
  | openComment hr hbody =>
    obtain ⟨behind, htells, hnext⟩ := hat.openComment hr hbody
    exact ⟨behind, hskipped.append htells, hnext⟩
  | blockComment hr hbody =>
    obtain ⟨behind, htells, hnext⟩ := hat.blockComment hr hbody
    exact ⟨behind, hskipped.append htells, hnext⟩
  | token hr =>
    obtain ⟨behind, htells, hnext⟩ := hat.scan hr
    exact ⟨behind, hskipped.append htells, hnext.stays rfl rfl⟩

theorem step (h : s.At text offset) : ∃ behind,
    Tells text offset (s.step.1.map (·.token)) behind ∧
      match s.step.2 with
      | some next => next.At text behind
      | none => behind = text.length := by
  cases hstart : s.atStart with
  | true =>
    rw [step_look hstart]
    exact h.look (look_layout s)
  | false =>
    obtain ⟨hr, hstep⟩ | ⟨found, next, hstep, hmove⟩ := step_moves hstart
    · obtain ⟨inside, hle, hblanks, hat⟩ := h.skipBlanks
      rw [hstep]
      exact ⟨text.length, (Tells.skipped hle hblanks).append (hat.finish hr), rfl⟩
    · rw [hstep]
      exact h.move hmove

theorem run (h : s.At text offset) : Tells text offset (s.run.map (·.token)) text.length := by
  fun_induction Lexer.run s generalizing offset with
  | case1 s found hstep =>
    obtain ⟨behind, htells, hbehind⟩ := h.step
    rw [hstep] at htells hbehind
    exact hbehind ▸ htells
  | case2 s found next hstep ih =>
    obtain ⟨behind, htells, hbehind⟩ := h.step
    rw [hstep] at htells hbehind
    rw [List.map_append]
    exact htells.append (ih hbehind)

end At

end Lexer

/-- Nothing of a text is lost. Every token but INDENT, DEDENT and the complaint about an uneven width
has a stretch of the text and the place where it begins. The stretch is the lexeme of the token; a
NEWLINE has the newline itself or nothing at the end of the text, and EOF has nothing. The stretches
follow each other, and before, between and behind them are blanks, line ends and comments only. -/
theorem tokens_lossless (source : String) : ∃ spans : List Stretch,
    List.Forall₂ (Token.SitsAt source.toList) ((tokensOf source).filter Token.isWritten) spans ∧
      Spaced source.toList 0 spans source.toList.length :=
  (Lexer.At.start source.toList).run

end Spellbook
