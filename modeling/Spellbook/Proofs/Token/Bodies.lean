import Spellbook.Proofs.Token.Abreast
import Spellbook.Proofs.Token.Swap

/-! One body on the line of its colon and alone on a line below. Both texts have the same tokens up
to the colon and the same tokens in the body. Which tokens are behind the body depends on how deep
the next line is. -/
namespace Spellbook

theorem Pos.advance_cases (p : Pos) (cs : List Char) :
    p.line < (p.advance cs).line ∨
      (p.advance cs).line = p.line ∧ (p.advance cs).col = p.col + cs.length := by
  induction cs generalizing p with
  | nil => exact .inr ⟨rfl, rfl⟩
  | cons c cs ih =>
    have hadvance : p.advance (c :: cs) = (p.after c).advance cs := rfl
    rw [hadvance]
    by_cases hc : c = '\n'
    · have hline : (p.after c).line = p.line + 1 := by rw [Pos.after, if_pos hc]
      obtain h | h := ih (p.after c) <;> omega
    · have hafter : p.after c = ⟨p.line, p.col + 1⟩ := if_neg hc
      have ih := ih (p.after c)
      rw [hafter] at ih ⊢
      simp only [List.length_cons] at ih ⊢
      omega

theorem Pos.advance_inj {before before' behind behind' : List Char}
    (htext : before ++ behind = before' ++ behind')
    (hpos : Pos.start.advance before = Pos.start.advance before') : before = before' := by
  have hshort : ∀ {pre mid : List Char},
      Pos.start.advance pre = Pos.start.advance (pre ++ mid) → mid = [] := by
    intro pre mid h
    rw [Pos.advance_append] at h
    have hcases := Pos.advance_cases (Pos.start.advance pre) mid
    rw [← h] at hcases
    exact List.length_eq_zero_iff.1 (by omega)
  obtain ⟨mid, rfl, -⟩ | ⟨mid, rfl, -⟩ := List.append_eq_append_iff.1 htext
  · rw [hshort hpos, List.append_nil]
  · rw [hshort hpos.symm, List.append_nil]

def Token.colon : Token := .ofSymbol .colon

namespace Lexer

variable {s s' : Lexer} {source source' : String} {c : Char} {a b cs head gap after : List Char}

/-! At the first token of the body -/

/-- A lexer outside of brackets at the first character of a token. -/
structure AtToken (s : Lexer) (c : Char) (cs : List Char) : Prop where
  rest : s.rest = c :: cs
  blank : isInlineBlank c = false
  newline : c ≠ '\n'
  comment : opensComment (c :: cs) = false
  fresh : s.fresh = false
  nesting : s.nesting = 0

theorem AtToken.step_eq (h : AtToken s c cs) : s.step = ([s.place (scan c cs)],
    some { s.skip (scan c cs).text (scan c cs).rest with
      nesting := nestingAfter 0 (scan c cs).kind, hasTokens := true }) := by
  have hskip := skipBlanks_eq h.rest h.blank
  have hmove := Move.token (hskip ▸ h.rest) h.newline h.comment
  rw [hskip, h.nesting] at hmove
  exact hmove.step_eq (by simp [atStart, h.fresh])

theorem exists_atToken {x : Lexed} {xs : List Lexed} {before : List Char} (hn : s.nesting = 0)
    (hw : s.Within source.toList) (hrun : s.run = x :: xs) (hx : x.token.kind.isSolid = true)
    (hpos : x.token.pos = Pos.start.advance before) (htext : source.toList = before ++ after) :
    ∃ m c cs, after = c :: cs ∧ AtToken m c cs ∧ s.run = m.run ∧ m.indents = s.indents := by
  obtain ⟨m, c, cs, hquiet, hf, hr, hc, hcomment, hplace⟩ := exists_token source hn hrun hx
  obtain ⟨before', htext', hpos'⟩ := (hquiet.within hw).skipBlanks
  have hbefore : before = before' :=
    Pos.advance_inj (htext.symm.trans htext') (hpos.symm.trans (hplace.trans hpos'))
  have hafter : after = c :: cs := by
    rw [htext', hbefore, hr] at htext
    exact (List.append_cancel_left htext).symm
  exact ⟨m.skipBlanks, c, cs, hafter, ⟨hr, isInlineBlank_head hr, hc, hcomment, hf, hquiet.nesting.trans hn⟩,
    hquiet.run.trans (run_skipBlanks hf).symm, hquiet.indents⟩

theorem AtToken.fork {w e : Nat} {ws : List Nat} (h : AtToken s c cs) (h' : AtToken s' c cs)
    (he : w < e) (hi : s.indents = w :: ws) (hi' : s'.indents = e :: w :: ws) :
    ∃ line first second, (∀ x ∈ line, x.token.kind ≠ .newline) ∧
      s.run.map Lexed.bare = line ++ .ok .lineEnd :: first ∧
      s'.run.map Lexed.bare = line ++ .ok .lineEnd :: second ∧ Fork first second := by
  obtain ⟨line, first, second, hline, hfirst, hsecond, hfork⟩ := fork_line he
    (s := { s.skip (scan c cs).text (scan c cs).rest with
      nesting := nestingAfter 0 (scan c cs).kind, hasTokens := true }) hi h.fresh rfl
    (s'.pos.advance (scan c cs).text)
  have hkind := scan_kind c cs
  simp only [List.mem_cons, List.not_mem_nil, or_false, not_or] at hkind
  refine ⟨(s.place (scan c cs)).bare :: line, first, second, ?_, ?_, ?_, hfork⟩
  · exact List.forall_mem_cons.2 ⟨by simpa [bare_place, Scan.bare, Scan.token] using hkind.1, hline⟩
  · rw [run_of_step h.step_eq, List.map_append, hfirst]
    rfl
  · have hnext : { s'.skip (scan c cs).text (scan c cs).rest with
        nesting := nestingAfter 0 (scan c cs).kind, hasTokens := true } =
        relocate { s.skip (scan c cs).text (scan c cs).rest with
          nesting := nestingAfter 0 (scan c cs).kind, hasTokens := true }
          (s'.pos.advance (scan c cs).text) (e :: w :: ws) := by
      simp only [relocate, skip, hi', h.fresh, h'.fresh]
    rw [run_of_step h'.step_eq, List.map_append, hnext, hsecond]
    simp [bare_place]

/-! At the colon -/

/-- The lexer comes to a colon outside of brackets. -/
structure AtColon (source : String) (head behind : List Char) (s : Lexer) : Prop where
  reached : Reached source s
  fresh : s.fresh = false
  nesting : s.nesting = 0
  rest : s.skipBlanks.rest = ':' :: behind
  text : source.toList = head ++ ':' :: behind

def behindColon (s : Lexer) (rest : List Char) : Lexer :=
  { s.skipBlanks.skip [':'] rest with hasTokens := true }

theorem run_colon (hf : s.fresh = false) (hn : s.nesting = 0) (hr : s.skipBlanks.rest = ':' :: a) :
    s.run = s.skipBlanks.place ⟨.symbol .colon, [':'], none, none, a⟩ :: (s.behindColon a).run := by
  have hscan : scan ':' a = ⟨.symbol .colon, [':'], none, none, a⟩ :=
    Scan.scan_symbol (s := .colon) nofun rfl (Scan.symbol?_mark (s := .colon) rfl a)
  have hmove := Move.token hr (by decide) rfl
  rw [hscan, hn] at hmove
  rw [run_of_step (hmove.step_eq (by simp [atStart, hf]))]
  have hnext : (s.behindColon a) = { s.skipBlanks.skip [':'] a with
      nesting := nestingAfter 0 (.symbol .colon), hasTokens := true } := by
    simp only [behindColon, nestingAfter, skip, skipBlanks, hn]
  rw [hnext]
  rfl

theorem AtColon.tokens (h : AtColon source head a s) (hs' : source'.toList = head ++ ':' :: b) :
    ∃ before : List Lexed, (before.map (·.token.kind)).foldl nestingAfter 0 = 0 ∧
      lex source = before ++ s.run ∧
      (lex source).map Lexed.bare =
        before.map Lexed.bare ++ .ok .colon :: (s.behindColon a).run.map Lexed.bare ∧
      (lex source').map Lexed.bare =
        before.map Lexed.bare ++ .ok .colon :: (s.behindColon b).run.map Lexed.bare := by
  obtain ⟨rest, before, hlex, hlex', hskip, hn⟩ :=
    h.reached.swap_here separates_colon h.text hs' h.rest
  refine ⟨before, hn.trans h.nesting, hlex, ?_, ?_⟩
  · rw [hlex, run_colon h.fresh h.nesting h.rest, List.map_append]
    rfl
  · have hrest : (s.withRest rest).skipBlanks.rest = ':' :: b := by
      rw [hskip]
      rfl
    have hbehind : (s.withRest rest).behindColon b = s.behindColon b := by
      simp only [behindColon, hskip]
      rfl
    rw [hlex', run_colon (s := s.withRest rest) h.fresh h.nesting hrest, List.map_append, hbehind]
    rfl

/-! Behind the colon -/

section Behind

variable (hf : s.fresh = false) (hn : s.nesting = 0)

include hf hn

theorem run_inline {blanks : List Char} (hblanks : blanks.all isInlineBlank = true)
    {m : Lexer} (hm : AtToken m c cs) : ∃ m', AtToken m' c cs ∧
      (s.behindColon (blanks ++ c :: cs)).run = m'.run ∧ m'.indents = s.indents := by
  have hrest : (s.behindColon (blanks ++ c :: cs)).skipBlanks.rest = c :: cs :=
    Scan.dropWhile_append hblanks (by simpa using hm.blank)
  exact ⟨(s.behindColon (blanks ++ c :: cs)).skipBlanks,
    ⟨hrest, hm.blank, hm.newline, hm.comment, hf, hn⟩,
    (run_skipBlanks (s := s.behindColon (blanks ++ c :: cs)) hf).symm, rfl⟩

theorem run_below {w : Nat} {ws : List Nat} (hi : s.indents = w :: ws) {indent : List Char}
    (hblanks : indent.all isInlineBlank = true) (hwidth : w < widthOf indent)
    {m : Lexer} (hm : AtToken m c cs) : ∃ m', AtToken m' c cs ∧
      (s.behindColon ('\n' :: (indent ++ c :: cs))).run.map Lexed.bare =
        .ok .lineEnd :: .ok .indent :: m'.run.map Lexed.bare ∧
      m'.indents = widthOf indent :: w :: ws := by
  obtain ⟨colon, hcolon⟩ : ∃ l : Lexer, l = s.behindColon ('\n' :: (indent ++ c :: cs)) := ⟨_, rfl⟩
  obtain ⟨below, hbelow⟩ : ∃ l : Lexer, l = { colon.skipBlanks.skip ['\n'] (indent ++ c :: cs) with
    fresh := true, hasTokens := false } := ⟨_, rfl⟩
  have hskip : colon.skipBlanks = colon := by
    rw [hcolon]
    exact skipBlanks_eq rfl rfl
  have hline : colon.step = ([lineEnd colon.skipBlanks.pos], some below) := by
    have hrest : colon.skipBlanks.rest = '\n' :: (indent ++ c :: cs) := by
      rw [hskip, hcolon]
      rfl
    have hmove := Move.newline hrest (by rw [hcolon]; exact hn)
    rw [show colon.hasTokens = true by rw [hcolon]; rfl, if_pos rfl, ← hbelow] at hmove
    have hf' : colon.fresh = false := by
      rw [hcolon]
      exact hf
    exact hmove.step_eq (by simp [atStart, hf'])
  have hn' : below.nesting = 0 := by
    rw [hbelow, hcolon]
    exact hn
  have hi' : below.indents = w :: ws := by
    rw [hbelow, hcolon]
    exact hi
  obtain ⟨hbare, hnext⟩ := layout_row (s := below) (by rw [hbelow]; rfl) hblanks
    hm.blank hm.newline hm.comment
  rw [hi', relevel_deeper hwidth] at hbare hnext
  refine ⟨below.layout.2, ?_, ?_, by rw [hnext]⟩
  · rw [hnext]
    exact ⟨rfl, hm.blank, hm.newline, hm.comment, rfl, hn'⟩
  · have hlook := step_look (s := below) (by rw [atStart, hn', hbelow]; rfl)
    rw [← hcolon, run_of_step hline, run_of_step hlook, List.map_append, List.map_append, hbare]
    rfl

end Behind

/-! The two texts -/

/-- The tokens of two texts with one body, which the first has on the line of its colon and the second
on a line below. -/
structure Twins (inline below : String) (before line first second : List Lexed) : Prop where
  outside : (before.map (·.token.kind)).foldl nestingAfter 0 = 0
  undivided : ∀ x ∈ line, x.token.kind ≠ .newline
  inline : (lex inline).map Lexed.bare = before ++ .ok .colon :: (line ++ .ok .lineEnd :: first)
  below : (lex below).map Lexed.bare =
    before ++ .ok .colon :: .ok .lineEnd :: .ok .indent :: (line ++ .ok .lineEnd :: second)
  fork : Fork first second

theorem lines_eq {line line' first second : List Lexed}
    (h : ∀ x ∈ line, x.token.kind ≠ .newline) (h' : ∀ x ∈ line', x.token.kind ≠ .newline)
    (heq : line ++ .ok .lineEnd :: first = line' ++ .ok .lineEnd :: second) :
    line = line' ∧ first = second := by
  obtain ⟨mid, rfl, hmid⟩ | ⟨mid, rfl, hmid⟩ := List.append_eq_append_iff.1 heq
  · cases mid with
    | nil => exact ⟨(List.append_nil _).symm, (List.cons.inj hmid).2⟩
    | cons x mid => exact absurd (by rw [← (List.cons.inj hmid).1]; rfl) (h' x (by simp))
  · cases mid with
    | nil => exact ⟨List.append_nil _, (List.cons.inj hmid).2.symm⟩
    | cons x mid => exact absurd (by rw [← (List.cons.inj hmid).1]; rfl) (h x (by simp))

theorem outside_bare {before : List Lexed}
    (h : (before.map (·.token.kind)).foldl nestingAfter 0 = 0) :
    ((before.map Lexed.bare).map (·.token.kind)).foldl nestingAfter 0 = 0 := by
  rwa [List.map_map]

theorem within_of_reached (h : Reached source s) : s.Within source.toList := by
  induction h with
  | start => exact ⟨[], rfl, rfl⟩
  | step _ hstep ih => exact (step_within ih).2 _ (by simp [hstep])

theorem AtColon.within (h : AtColon source head a s) : (s.behindColon a).Within source.toList :=
  (within_of_reached h.reached).skipBlanks.skip h.rest

section Moved

variable {x : Lexed} {xs : List Lexed} {w : Nat} {ws : List Nat} (hi : s.indents = w :: ws)
  (h : AtColon source head (gap ++ after) s)

include hi h

theorem AtColon.twins_below {y : Lexed} (hrun : s.run = y :: x :: xs)
    (hx : x.token.kind.isSolid = true)
    (hpos : x.token.pos = Pos.start.advance (head ++ ':' :: gap)) {indent : List Char}
    (hblanks : indent.all isInlineBlank = true) (hwidth : w < widthOf indent)
    (hs' : source'.toList = head ++ ':' :: '\n' :: (indent ++ after)) :
    ∃ before line first second, lex source = before ++ s.run ∧
      Twins source source' (before.map Lexed.bare) line first second := by
  have htext : source.toList = head ++ ':' :: gap ++ after := by simp [h.text]
  obtain ⟨before, hn, hbefore, hlex, hlex'⟩ := h.tokens hs'
  rw [run_colon h.fresh h.nesting h.rest] at hrun
  obtain ⟨m, c, cs, rfl, hm, hsame, hindents⟩ := exists_atToken (s := s.behindColon (gap ++ after))
    h.nesting h.within (List.cons.inj hrun).2 hx hpos htext
  obtain ⟨m', hm', hrun', hindents'⟩ := run_below h.fresh h.nesting hi hblanks hwidth hm
  obtain ⟨line, first, second, hline, hfirst, hsecond, hfork⟩ :=
    hm.fork hm' hwidth (hindents.trans hi) hindents'
  refine ⟨before, line, first, second, hbefore, outside_bare hn, hline, ?_, ?_, hfork⟩
  · rw [hlex, hsame, hfirst]
  · rw [hlex', hrun', hsecond]

theorem AtColon.twins_inline {ls : List Lexed}
    (hbare : (s.behindColon (gap ++ after)).run.map Lexed.bare = .ok .lineEnd :: .ok .indent :: ls)
    {y z v : Lexed} (hrun : s.run = y :: z :: v :: x :: xs) (hx : x.token.kind.isSolid = true)
    (hpos : x.token.pos = Pos.start.advance (head ++ ':' :: gap)) {gap' : List Char}
    (hblanks : gap'.all isInlineBlank = true)
    (hs' : source'.toList = head ++ ':' :: (gap' ++ after)) :
    ∃ before line first second, lex source = before ++ s.run ∧
      Twins source' source (before.map Lexed.bare) line first second := by
  have htext : source.toList = head ++ ':' :: gap ++ after := by simp [h.text]
  obtain ⟨before, hn, hbefore, hlex, hlex'⟩ := h.tokens hs'
  obtain ⟨y', next, hnext, hn₁, -, hi₁, hw₁⟩ := exists_newline source
    (s := s.behindColon (gap ++ after)) h.nesting hbare
  rw [hnext, List.map_cons] at hbare
  obtain ⟨z', deep, e, hdeep, he, hi₂, hn₂, -, hw₂⟩ := exists_indent source
    (hi₁.trans hi) (List.cons.inj hbare).2
  rw [run_colon h.fresh h.nesting h.rest, hnext, hdeep] at hrun
  obtain ⟨m, c, cs, rfl, hm, hsame, hindents⟩ := exists_atToken hn₂ (hw₂ (hw₁ h.within))
    (List.cons.inj (List.cons.inj (List.cons.inj hrun).2).2).2 hx hpos htext
  obtain ⟨m', hm', hrun', hindents'⟩ := run_inline h.fresh h.nesting hblanks hm
  obtain ⟨line, first, second, hline, hfirst, hsecond, hfork⟩ :=
    hm'.fork hm he (hindents'.trans hi) (hindents.trans hi₂)
  refine ⟨before, line, first, second, hbefore, outside_bare hn, hline, ?_, ?_, hfork⟩
  · rw [hlex', hrun', hfirst]
  · have hmarks := List.cons.inj hbare
    rw [hdeep, List.map_cons] at hmarks
    rw [hlex, hnext, hdeep, List.map_cons, List.map_cons, hmarks.1, (List.cons.inj hmarks.2).1,
      hsame, hsecond]

end Moved

end Lexer

end Spellbook
