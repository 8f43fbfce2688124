import Spellbook.Token.Lexer

/-! What the lexer does in one step, case by case, and what it finds. Lines are counted from 1, and
the lexer never goes back to an earlier line, so every token has a place in the text. -/
namespace Spellbook

def opensComment : List Char → Bool
  | '/' :: '/' :: _ => true
  | '/' :: '*' :: _ => true
  | _ => false

theorem Pos.line_le_after (p : Pos) (c : Char) : p.line ≤ (p.after c).line := by
  by_cases hc : c = '\n' <;> simp [Pos.after, hc]

theorem Pos.line_le_advance (p : Pos) (cs : List Char) : p.line ≤ (p.advance cs).line := by
  induction cs generalizing p with
  | nil => exact Nat.le_refl _
  | cons c cs ih => exact Nat.le_trans (p.line_le_after c) (ih (p.after c))

namespace Lexer

/-- A step that goes on within the text and does not look at the indentation of a line. -/
inductive Move (s : Lexer) : List Lexed → Lexer → Prop where
  | inside {cs : List Char} : s.skipBlanks.rest = '\n' :: cs → 0 < s.nesting →
    Move s [] (s.skipBlanks.skip ['\n'] cs)
  | newline {cs : List Char} : s.skipBlanks.rest = '\n' :: cs → s.nesting = 0 →
    Move s (if s.hasTokens then [lineEnd s.skipBlanks.pos] else [])
      { s.skipBlanks.skip ['\n'] cs with fresh := true, hasTokens := false }
  | lineComment {cs : List Char} : s.skipBlanks.rest = '/' :: '/' :: cs →
    Move s [] (s.skipBlanks.skip ('/' :: '/' :: cs.takeWhile (· != '\n'))
      (cs.dropWhile (· != '\n')))
  | openComment {cs text : List Char} : s.skipBlanks.rest = '/' :: '*' :: cs →
    commentBody cs = (text, none) →
    Move s [s.skipBlanks.openComment ('/' :: '*' :: text)]
      (s.skipBlanks.skip ('/' :: '*' :: text) [])
  | blockComment {cs text rest : List Char} : s.skipBlanks.rest = '/' :: '*' :: cs →
    commentBody cs = (text, some rest) → Move s [] (s.skipBlanks.skip ('/' :: '*' :: text) rest)
  | token {c : Char} {cs : List Char} : s.skipBlanks.rest = c :: cs → c ≠ '\n' →
    opensComment (c :: cs) = false →
    Move s [s.skipBlanks.place (scan c cs)]
      { s.skipBlanks.skip (scan c cs).text (scan c cs).rest with
        nesting := nestingAfter s.nesting (scan c cs).kind, hasTokens := true }

/-- The indentation of a line is looked at. -/
inductive Look (s : Lexer) : List Lexed → Lexer → Prop where
  | blank : blankLine s.skipBlanks.rest = true → Look s [] { s with fresh := false }
  | openComment {cs text : List Char} : s.skipBlanks.rest = '/' :: '*' :: cs →
    commentBody cs = (text, none) →
    Look s [s.skipBlanks.openComment ('/' :: '*' :: text)]
      { s.skipBlanks.skip ('/' :: '*' :: text) [] with fresh := false }
  | comment {cs text rest : List Char} : s.skipBlanks.rest = '/' :: '*' :: cs →
    commentBody cs = (text, some rest) → blankLine (rest.dropWhile isInlineBlank) = true →
    Look s [] { s.skipBlanks.skip ('/' :: '*' :: text) rest with fresh := false }
  | behind {cs text rest : List Char} {behind : Lexer} : s.skipBlanks.rest = '/' :: '*' :: cs →
    commentBody cs = (text, some rest) → blankLine (rest.dropWhile isInlineBlank) = false →
    behind = { s.skipBlanks.skip ('/' :: '*' :: text) rest with fresh := false } →
    Look s (behind.applyIndent (widthOf (s.rest.takeWhile isInlineBlank))).1
      (behind.applyIndent (widthOf (s.rest.takeWhile isInlineBlank))).2
  | row {inside : Lexer} : blankLine s.skipBlanks.rest = false →
    (∀ cs, s.skipBlanks.rest ≠ '/' :: '*' :: cs) → inside = { s.skipBlanks with fresh := false } →
    Look s (inside.applyIndent (widthOf (s.rest.takeWhile isInlineBlank))).1
      (inside.applyIndent (widthOf (s.rest.takeWhile isInlineBlank))).2

variable {s next : Lexer} {found : List Lexed}

theorem Look.layout_eq (h : Look s found next) : s.layout = (found, next) := by
  have hskip : (skipBlanks { s with fresh := false }).rest = s.skipBlanks.rest := rfl
  have hslash : ∀ cs, blankLine ('/' :: '*' :: cs) = false := fun cs => by simp [blankLine]
  cases h with
  | blank h => simp only [layout, hskip, h, if_true]
  | openComment hr hbody =>
    simp only [layout, hskip, hr, hslash, Bool.false_eq_true, if_false, hbody]
    rfl
  | comment hr hbody hblank =>
    simp only [layout, hskip, hr, hslash, Bool.false_eq_true, if_false, hbody]
    exact if_pos hblank
  | behind hr hbody hblank hbehind =>
    simp only [layout, hskip, hr, hslash, Bool.false_eq_true, if_false, hbody, hbehind]
    refine (if_neg ?_).trans rfl
    simpa [skipBlanks, skip] using hblank
  | row hblank hr hinside =>
    simp only [layout, hskip, hblank, Bool.false_eq_true, if_false, hinside]
    rfl

theorem look_layout (s : Lexer) : Look s s.layout.1 s.layout.2 := by
  have hskip : (skipBlanks { s with fresh := false }).rest = s.skipBlanks.rest := rfl
  suffices h : ∃ found next, Look s found next by
    obtain ⟨found, next, h⟩ := h
    rw [h.layout_eq]
    exact h
  cases hblank : blankLine s.skipBlanks.rest with
  | true => exact ⟨_, _, .blank hblank⟩
  | false =>
    by_cases hr : ∃ cs, s.skipBlanks.rest = '/' :: '*' :: cs
    · obtain ⟨cs, hr⟩ := hr
      cases hbody : commentBody cs with
      | mk text rest =>
        cases rest with
        | none => exact ⟨_, _, .openComment hr hbody⟩
        | some rest =>
          cases hbehind : blankLine (rest.dropWhile isInlineBlank) with
          | true => exact ⟨_, _, .comment hr hbody hbehind⟩
          | false => exact ⟨_, _, .behind hr hbody hbehind rfl⟩
    · exact ⟨_, _, .row hblank (not_exists.1 hr) rfl⟩

def atStart (s : Lexer) : Bool := s.fresh && s.nesting == 0

theorem step_look (h : s.atStart = true) : s.step = (s.layout.1, some s.layout.2) := by
  simp only [atStart] at h
  simp only [step, h, if_true]

theorem Move.step_eq (h : Move s found next) (hs : s.atStart = false) :
    s.step = (found, some next) := by
  simp only [atStart] at hs
  simp only [step, hs, Bool.false_eq_true, if_false]
  cases h with
  | inside hr hn =>
    simp only [hr]
    exact if_pos hn
  | newline hr hn =>
    simp only [hr]
    exact if_neg (Nat.not_lt.2 (Nat.le_of_eq hn))
  | lineComment hr => simp only [hr]
  | openComment hr hbody => simp only [hr, hbody]
  | blockComment hr hbody => simp only [hr, hbody]
  | token hr hc hcomment =>
    simp only [hr]
    split
    · rename_i h
      cases h
    · rename_i h
      exact absurd (List.cons.inj h).1 hc
    · rename_i h
      rw [h] at hcomment
      simp [opensComment] at hcomment
    · rename_i h
      rw [h] at hcomment
      simp [opensComment] at hcomment
    · rename_i h
      cases h
      rfl

theorem step_end (hs : s.atStart = false) (hr : s.skipBlanks.rest = []) :
    s.step = (s.skipBlanks.finish, none) := by
  simp only [atStart] at hs
  simp only [step, hs, Bool.false_eq_true, if_false, hr]

theorem step_moves (hs : s.atStart = false) :
    (s.skipBlanks.rest = [] ∧ s.step = (s.skipBlanks.finish, none)) ∨
      ∃ found next, s.step = (found, some next) ∧ Move s found next := by
  have hmove : (∃ found next, Move s found next) →
      ∃ found next, s.step = (found, some next) ∧ Move s found next := by
    rintro ⟨found, next, h⟩
    exact ⟨found, next, h.step_eq hs, h⟩
  cases hr : s.skipBlanks.rest with
  | nil => exact .inl ⟨rfl, step_end hs hr⟩
  | cons c cs =>
    refine .inr (hmove ?_)
    by_cases hc : c = '\n'
    · subst hc
      by_cases hn : s.nesting = 0
      · exact ⟨_, _, .newline hr hn⟩
      · exact ⟨_, _, .inside hr (Nat.pos_of_ne_zero hn)⟩
    · cases hcomment : opensComment (c :: cs) with
      | false => exact ⟨_, _, .token hr hc hcomment⟩
      | true =>
        unfold opensComment at hcomment
        split at hcomment
        · rename_i more h
          exact ⟨_, _, .lineComment (hr.trans h)⟩
        · rename_i more h
          cases hbody : commentBody more with
          | mk text rest =>
            cases rest with
            | none => exact ⟨_, _, .openComment (hr.trans h) hbody⟩
            | some rest => exact ⟨_, _, .blockComment (hr.trans h) hbody⟩
        · cases hcomment

theorem step_goesOn (h : next ∈ s.step.2) : Look s s.step.1 next ∨ Move s s.step.1 next := by
  cases hstart : s.atStart with
  | true =>
    rw [step_look hstart] at h ⊢
    obtain rfl := Option.some.inj h
    exact .inl (look_layout s)
  | false =>
    obtain ⟨-, hstep⟩ | ⟨found, next', hstep, hmove⟩ := step_moves hstart
    · rw [hstep] at h
      cases h
    · rw [hstep] at h ⊢
      obtain rfl := Option.some.inj h
      exact .inr hmove

/-! What a step finds -/

variable {l : Lexed}

theorem line_le_skipBlanks (s : Lexer) : s.pos.line ≤ s.skipBlanks.pos.line :=
  s.pos.line_le_advance _

theorem line_le_advance (s : Lexer) (taken : List Char) :
    s.pos.line ≤ (s.skipBlanks.pos.advance taken).line :=
  Nat.le_trans s.line_le_skipBlanks (s.skipBlanks.pos.line_le_advance taken)

theorem mem_applyIndent {width : Nat} (hl : l ∈ (s.applyIndent width).1) :
    l = mark .indent ⟨s.pos.line, width + 1⟩ ∨ l = mark .dedent ⟨s.pos.line, width + 1⟩ ∨
      l = unevenDedent ⟨s.pos.line, width + 1⟩ := by
  simp only [applyIndent] at hl
  split at hl
  · exact .inl (List.mem_singleton.1 hl)
  · split at hl
    · exact .inr (.inl (List.eq_of_mem_replicate hl))
    · obtain hl | hl := List.mem_append.1 hl
      · exact .inr (.inl (List.eq_of_mem_replicate hl))
      · exact .inr (.inr (List.mem_singleton.1 hl))

theorem mem_finish (hl : l ∈ s.finish) :
    l = lineEnd s.pos ∨ l = mark .dedent s.pos ∨ l = mark .eof s.pos := by
  simp only [finish, List.mem_append, List.mem_singleton] at hl
  obtain (hl | hl) | hl := hl
  · by_cases ht : s.hasTokens <;> simp [ht] at hl
    exact .inl hl
  · exact .inr (.inl (List.eq_of_mem_replicate hl))
  · exact .inr (.inr hl)

/-- What a step finds, but for EOF: marks in the line of the lexer or below it, a comment that never
ends, or a token that is scanned behind the blanks. -/
inductive Finds (s : Lexer) : Lexed → Prop where
  | lineEnd {pos : Pos} : s.pos.line ≤ pos.line → Finds s (lineEnd pos)
  | indent {pos : Pos} : s.pos.line ≤ pos.line → Finds s (mark .indent pos)
  | dedent {pos : Pos} : s.pos.line ≤ pos.line → Finds s (mark .dedent pos)
  | uneven {pos : Pos} : s.pos.line ≤ pos.line → Finds s (unevenDedent pos)
  | openComment (text : List Char) : Finds s (s.skipBlanks.openComment ('/' :: '*' :: text))
  | token {c : Char} {cs : List Char} : s.skipBlanks.rest = c :: cs → c ≠ '\n' →
    Finds s (s.skipBlanks.place (scan c cs))

theorem finds_applyIndent {m : Lexer} (h : s.pos.line ≤ m.pos.line) (width : Nat) :
    ∀ l ∈ (m.applyIndent width).1, s.Finds l := by
  intro l hl
  obtain rfl | rfl | rfl := mem_applyIndent hl
  · exact .indent h
  · exact .dedent h
  · exact .uneven h

theorem Look.finds (h : Look s found next) : ∀ l ∈ found, s.Finds l := by
  cases h with
  | blank | comment => exact List.forall_mem_nil _
  | openComment => exact List.forall_mem_singleton.2 (.openComment _)
  | behind _ _ _ hbehind =>
    refine finds_applyIndent ?_ _
    rw [hbehind]
    exact s.line_le_advance _
  | row _ _ hinside =>
    refine finds_applyIndent ?_ _
    rw [hinside]
    exact s.line_le_skipBlanks

theorem Move.finds (h : Move s found next) : ∀ l ∈ found, s.Finds l := by
  cases h with
  | inside | lineComment | blockComment => exact List.forall_mem_nil _
  | newline =>
    split
    · exact List.forall_mem_singleton.2 (.lineEnd s.line_le_skipBlanks)
    · exact List.forall_mem_nil _
  | openComment => exact List.forall_mem_singleton.2 (.openComment _)
  | token hr hc => exact List.forall_mem_singleton.2 (.token hr hc)

theorem finds_step (s : Lexer) : ∀ l ∈ s.step.1,
    s.Finds l ∨ s.step.2 = none ∧ l = mark .eof s.skipBlanks.pos := by
  intro l hl
  cases hstart : s.atStart with
  | true =>
    rw [step_look hstart] at hl
    exact .inl ((look_layout s).finds l hl)
  | false =>
    obtain ⟨-, hstep⟩ | ⟨found, next, hstep, hmove⟩ := step_moves hstart
    · rw [hstep] at hl ⊢
      obtain rfl | rfl | rfl := mem_finish hl
      · exact .inl (.lineEnd s.line_le_skipBlanks)
      · exact .inl (.dedent s.line_le_skipBlanks)
      · exact .inr ⟨rfl, rfl⟩
    · rw [hstep] at hl
      exact .inl (hmove.finds l hl)

/-! Lines -/

theorem line_applyIndent (s : Lexer) (width : Nat) :
    (s.applyIndent width).2.pos.line = s.pos.line := by
  simp only [applyIndent]
  split
  · rfl
  · split <;> rfl

theorem Look.line_le (h : Look s found next) : s.pos.line ≤ next.pos.line := by
  cases h with
  | blank => exact Nat.le_refl _
  | openComment | comment => exact s.line_le_advance _
  | behind _ _ _ hbehind =>
    rw [line_applyIndent, hbehind]
    exact s.line_le_advance _
  | row _ _ hinside =>
    rw [line_applyIndent, hinside]
    exact s.line_le_skipBlanks

theorem Move.line_le (h : Move s found next) : s.pos.line ≤ next.pos.line := by
  cases h <;> exact s.line_le_advance _

theorem line_le_step (h : next ∈ s.step.2) : s.pos.line ≤ next.pos.line := by
  obtain hlook | hmove := step_goesOn h
  · exact hlook.line_le
  · exact hmove.line_le

theorem mem_run (hl : l ∈ s.run) :
    ∃ m : Lexer, s.pos.line ≤ m.pos.line ∧ (m.Finds l ∨ l = mark .eof m.skipBlanks.pos) := by
  fun_induction run s with
  | case1 s found h =>
    exact ⟨s, Nat.le_refl _, (finds_step s l (h ▸ hl)).imp_right And.right⟩
  | case2 s found next h ih =>
    obtain hl | hl := List.mem_append.1 hl
    · exact ⟨s, Nat.le_refl _, (finds_step s l (h ▸ hl)).imp_right And.right⟩
    · obtain ⟨m, hline, hm⟩ := ih hl
      exact ⟨m, Nat.le_trans (line_le_step (by rw [h]; rfl)) hline, hm⟩

theorem Finds.line_le (h : s.Finds l) : s.pos.line ≤ l.token.pos.line := by
  cases h with
  | lineEnd hline | indent hline | dedent hline | uneven hline => exact hline
  | openComment | token => exact s.line_le_skipBlanks

end Lexer

theorem line_pos_of_mem_tokensOf {source : String} {t : Token} (h : t ∈ tokensOf source) :
    0 < t.pos.line := by
  obtain ⟨l, hl, rfl⟩ := List.mem_map.1 h
  obtain ⟨m, hline, hm | rfl⟩ := Lexer.mem_run hl
  · exact Nat.le_trans hline hm.line_le
  · exact Nat.le_trans hline m.line_le_skipBlanks

end Spellbook
