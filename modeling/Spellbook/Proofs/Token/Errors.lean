import Spellbook.Proofs.Token.Trim

/-! Illegal tokens and lexical errors go together, one token for each error and in the same order.
They agree on the reason and on the line, and on the column unless a comment never ends: its token is
where the comment starts, its error in the first column. Such a comment takes all of the text that is
left, so no error comes behind it. -/
namespace Spellbook

/-- The token says what the error says. It is where the error is, which has no column of its own if
it is a comment that never ends. -/
structure Token.StandsFor (t : Token) (e : LexError) : Prop where
  reason : t.literal = some (.str e.flaw.reason)
  pos : e.pos = if e.flaw = .openComment then ⟨t.pos.line, 1⟩ else t.pos

def Lexed.isOpenComment (l : Lexed) : Bool := l.error.any (·.flaw == .openComment)

theorem Lexed.isOpenComment_iff {l : Lexed} {e : LexError} (h : l.error = some e) :
    l.isOpenComment = true ↔ e.flaw = .openComment := by
  simp [isOpenComment, h]

/-- Illegal tokens and errors in step: the tokens of a list that stand for errors, and these. -/
theorem standsFor_of_lexed {ls : List Lexed} (hhonest : ∀ l ∈ ls, l.Honest)
    (hstands : ∀ l ∈ ls, ∀ e ∈ l.error, l.token.StandsFor e) :
    List.Forall₂ Token.StandsFor ((ls.map (·.token)).filter (·.kind = .illegal))
      (ls.filterMap (·.error)) := by
  induction ls with
  | nil => exact .nil
  | cons l ls ih =>
    obtain ⟨hl, hls⟩ := List.forall_mem_cons.1 hhonest
    obtain ⟨hs, hss⟩ := List.forall_mem_cons.1 hstands
    have ih := ih hls hss
    cases he : l.error with
    | none =>
      have hk : ¬ l.token.kind = .illegal := fun hk => by simpa [he] using hl.illegal.1 hk
      simpa [he, hk] using ih
    | some e =>
      have hk : l.token.kind = .illegal := hl.illegal.2 (by simp [he])
      simpa [he, hk] using ⟨hs e he, ih⟩

namespace Scan

/-- What is scanned at a character: a string, a number, a word, a symbol, or nothing that is known. -/
inductive Scanned (c : Char) (cs : List Char) : Scan → Prop where
  | string {kind : Kind} {opening : List Char} {q : Char} {more : List Char} :
    kind = .str ∨ kind = .template → Scanned c cs (Scan.string kind opening q more)
  | number : Scanned c cs (Scan.number (c :: cs))
  | word : Scanned c cs (Scan.word (c :: cs))
  | symbol {s : Symbol} {text rest : List Char} : text = s.text.toList →
    Scanned c cs ⟨.symbol s, text, none, none, rest⟩
  | unexpected : Scanned c cs (Scan.unexpected c cs)

theorem scanned_scan (c : Char) (cs : List Char) : Scanned c cs (scan c cs) := by
  unfold scan
  split
  · exact .string (.inl rfl)
  · split
    · exact .string (.inr rfl)
    · split
      · rename_i hunder
        simp only [Bool.and_eq_true, decide_eq_true_eq] at hunder
        exact .symbol (by rw [hunder.1]; rfl)
      · split
        · exact .number
        · split
          · exact .word
          · split
            · exact .symbol rfl
            · exact .unexpected

end Scan

namespace Lexer

variable {s : Lexer} {l : Lexed}

/-- Where the errors come from that a step finds: a comment that never ends, behind which there is
nothing, a width that no open block has, and the characters of a token. -/
inductive Find (found : List Lexed) (next : Option Lexer) : Lexed → Prop where
  | clean {l : Lexed} : l.error = none → Find found next l
  | comment (at_ : Lexer) (text : List Char) : found = [at_.openComment text] →
    (∀ behind ∈ next, behind.rest = []) → Find found next (at_.openComment text)
  | uneven (pos : Pos) : Find found next (unevenDedent pos)
  | scanned (at_ : Lexer) (c : Char) (cs : List Char) : Find found next (at_.place (scan c cs))

theorem find_applyIndent (s : Lexer) (width : Nat) {found : List Lexed} {next : Option Lexer} :
    ∀ l ∈ (s.applyIndent width).1, Find found next l := by
  intro l hl
  obtain rfl | rfl | rfl := mem_applyIndent hl
  · exact .clean rfl
  · exact .clean rfl
  · exact .uneven _

theorem error_finish (s : Lexer) : ∀ l ∈ s.finish, l.error = none := by
  intro l hl
  obtain rfl | rfl | rfl := mem_finish hl <;> rfl

theorem find_step (s : Lexer) : ∀ l ∈ s.step.1, Find s.step.1 s.step.2 l := by
  intro l hl
  cases hstart : s.atStart with
  | true =>
    have hlook := look_layout s
    rw [step_look hstart] at hl ⊢
    dsimp only at hl ⊢
    generalize s.layout.1 = found at hl hlook ⊢
    generalize s.layout.2 = next at hlook ⊢
    cases hlook with
    | blank | comment => cases hl
    | openComment =>
      rw [List.mem_singleton.1 hl]
      exact .comment _ _ rfl fun behind hbehind => Option.some.inj hbehind ▸ rfl
    | behind | row => exact find_applyIndent _ _ l hl
  | false =>
    obtain ⟨-, hstep⟩ | ⟨found, next, hstep, hmove⟩ := step_moves hstart
    · rw [hstep] at hl ⊢
      exact .clean (error_finish _ l hl)
    · rw [hstep] at hl ⊢
      cases hmove with
      | inside | lineComment | blockComment => cases hl
      | newline =>
        by_cases ht : s.hasTokens <;> simp [ht] at hl
        rw [hl]
        exact .clean rfl
      | openComment =>
        rw [List.mem_singleton.1 hl]
        exact .comment _ _ rfl fun behind hbehind => Option.some.inj hbehind ▸ rfl
      | token =>
        rw [List.mem_singleton.1 hl]
        exact .scanned _ _ _

/-! The place of an error -/

theorem flaw_scan (c : Char) (cs : List Char) : (scan c cs).flaw ≠ some .openComment := by
  have hscanned := Scan.scanned_scan c cs
  generalize scan c cs = t at hscanned ⊢
  cases hscanned with
  | @string kind opening q more =>
    have hbody : ∀ (b : Scan.Body) opening, (b.toScan kind opening).flaw ≠ some .openComment := by
      intro b opening
      unfold Scan.Body.toScan
      split <;> simp
    unfold Scan.string
    split <;> exact hbody _ _
  | number => simp [Scan.number_flaw]
  | word => simp [Scan.word_flaw]
  | symbol => simp
  | unexpected => simp [Scan.unexpected]

theorem Find.placed {found : List Lexed} {next : Option Lexer} (h : Find found next l) :
    ∀ e ∈ l.error, e.pos = if e.flaw = .openComment then ⟨l.token.pos.line, 1⟩ else l.token.pos := by
  intro e he
  cases h with
  | clean hclean => simp [hclean] at he
  | comment => cases he; rfl
  | uneven => cases he; rfl
  | scanned at_ c cs =>
    obtain ⟨f, hf, rfl⟩ := Option.map_eq_some_iff.1 he
    have hne : f ≠ .openComment := fun heq => flaw_scan c cs (heq ▸ hf)
    exact (if_neg hne).symm

theorem placed_run (s : Lexer) : ∀ l ∈ s.run, ∀ e ∈ l.error,
    e.pos = if e.flaw = .openComment then ⟨l.token.pos.line, 1⟩ else l.token.pos := by
  intro l hl
  fun_induction run s with
  | case1 s found h => exact (find_step s l (h ▸ hl)).placed
  | case2 s found next h ih =>
    obtain hl | hl := List.mem_append.1 hl
    · exact (find_step s l (h ▸ hl)).placed
    · exact ih hl

/-! Nothing behind a comment that never ends -/

theorem step_of_nil (h : s.rest = []) :
    (∀ l ∈ s.step.1, l.error = none) ∧ ∀ next ∈ s.step.2, next.rest = [] := by
  have hrest : s.skipBlanks.rest = [] := by simp [skipBlanks, skip, h]
  cases hstart : s.atStart with
  | true =>
    have hblank : blankLine s.skipBlanks.rest = true := by rw [hrest]; rfl
    rw [step_look hstart, (Look.blank hblank).layout_eq]
    exact ⟨List.forall_mem_nil _, fun next hnext => Option.some.inj hnext ▸ h⟩
  | false =>
    rw [step_end hstart hrest]
    exact ⟨error_finish _, fun next hnext => absurd hnext (Option.not_mem_none next)⟩

theorem error_run_of_nil (h : s.rest = []) : ∀ l ∈ s.run, l.error = none := by
  intro l hl
  fun_induction run s with
  | case1 s found hstep =>
    have hfound := (step_of_nil h).1
    rw [hstep] at hfound
    exact hfound l hl
  | case2 s found next hstep ih =>
    obtain ⟨hfound, hnext⟩ := step_of_nil h
    rw [hstep] at hfound hnext
    obtain hl | hl := List.mem_append.1 hl
    · exact hfound l hl
    · exact ih (hnext next rfl) hl

theorem Find.alone {found : List Lexed} {next : Option Lexer} (h : Find found next l)
    (hl : l.isOpenComment = true) : found = [l] ∧ ∀ behind ∈ next, behind.rest = [] := by
  cases h with
  | clean hclean => simp [Lexed.isOpenComment, hclean] at hl
  | comment at_ text hfound hnext => exact ⟨hfound, hnext⟩
  | uneven => cases hl
  | scanned at_ c cs =>
    simp only [Lexed.isOpenComment, place, Option.any_map] at hl
    obtain ⟨f, hf, hopen⟩ := (Option.any_eq_true _ _).1 hl
    exact absurd (eq_of_beq hopen ▸ hf) (flaw_scan c cs)

theorem pairwise_step (s : Lexer) :
    s.step.1.Pairwise fun l l' => l.isOpenComment = true → l'.error = none := by
  by_cases hany : ∃ l ∈ s.step.1, l.isOpenComment = true
  · obtain ⟨l, hl, hopen⟩ := hany
    rw [((find_step s l hl).alone hopen).1]
    exact List.pairwise_singleton _ l
  · refine List.pairwise_of_forall_mem_list fun l hl l' _ hopen => ?_
    exact absurd ⟨l, hl, hopen⟩ hany

theorem last_openComment (s : Lexer) :
    s.run.Pairwise fun l l' => l.isOpenComment = true → l'.error = none := by
  fun_induction run s with
  | case1 s found h =>
    have hfound := pairwise_step s
    rwa [h] at hfound
  | case2 s found next h ih =>
    have hfound := pairwise_step s
    have hfind := find_step s
    rw [h] at hfound hfind
    refine List.pairwise_append.2 ⟨hfound, ih, fun l hl l' hl' hopen => ?_⟩
    exact error_run_of_nil (((hfind l hl).alone hopen).2 next rfl) l' hl'

end Lexer

end Spellbook
