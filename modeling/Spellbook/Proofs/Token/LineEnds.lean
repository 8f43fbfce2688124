import Spellbook.Proofs.Token.Errors
import Spellbook.Proofs.Token.Steps

/-! Line ends of two characters. A carriage return before a newline is a blank, or the last character
of the comment that the newline ends, so the tokens of a text are the same with one before each
newline. Only the ends of its lines move, by one column. -/
namespace Spellbook

def Pos.right (p : Pos) : Pos := ⟨p.line, p.col + 1⟩

/-- The text with a carriage return before each newline. -/
def crlf : List Char → List Char
  | [] => []
  | c :: cs => if c = '\n' then '\r' :: '\n' :: crlf cs else c :: crlf cs

section Text

variable {c d : Char} {cs as : List Char}

theorem crlf_newline (cs : List Char) : crlf ('\n' :: cs) = '\r' :: '\n' :: crlf cs := if_pos rfl

theorem crlf_cons (h : c ≠ '\n') (cs : List Char) : crlf (c :: cs) = c :: crlf cs := if_neg h

theorem crlf_append (as bs : List Char) : crlf (as ++ bs) = crlf as ++ crlf bs := by
  induction as with
  | nil => rfl
  | cons c as ih =>
    by_cases hc : c = '\n'
    · subst hc
      simp only [List.cons_append, crlf_newline, ih]
    · simp only [List.cons_append, crlf_cons hc, ih]

theorem crlf_of_not_mem (h : '\n' ∉ cs) : crlf cs = cs := by
  induction cs with
  | nil => rfl
  | cons c cs ih =>
    rw [crlf_cons (List.ne_of_not_mem_cons h).symm, ih (List.not_mem_of_not_mem_cons h)]

/-- What comes first in the new text comes first in the old one, unless it is a carriage return. -/
theorem eq_of_crlf (h : crlf cs = d :: as) (hd : d ≠ '\r') : ∃ more, cs = d :: more := by
  cases cs with
  | nil => cases h
  | cons c cs =>
    by_cases hc : c = '\n'
    · subst hc
      rw [crlf_newline] at h
      exact absurd (List.cons.inj h).1.symm hd
    · rw [crlf_cons hc] at h
      exact ⟨cs, by rw [(List.cons.inj h).1]⟩

theorem Pos.advance_crlf (p : Pos) (cs : List Char) : p.advance (crlf cs) = p.advance cs := by
  induction cs generalizing p with
  | nil => rfl
  | cons c cs ih =>
    by_cases hc : c = '\n'
    · subst hc
      rw [crlf_newline]
      exact ih _
    · rw [crlf_cons hc]
      exact ih _

/-- A run of characters that goes over carriage returns and not over newlines. Either it ends before
a newline, and then takes one carriage return more, or it is the same. -/
theorem span_crlf {p : Char → Bool} (hreturn : p '\r' = true) (hnewline : p '\n' = false)
    (cs : List Char) :
    (∃ more, cs.dropWhile p = '\n' :: more ∧ (crlf cs).takeWhile p = cs.takeWhile p ++ ['\r'] ∧
      (crlf cs).dropWhile p = '\n' :: crlf more) ∨
    (∀ more, cs.dropWhile p ≠ '\n' :: more) ∧ (crlf cs).takeWhile p = cs.takeWhile p ∧
      (crlf cs).dropWhile p = crlf (cs.dropWhile p) := by
  induction cs with
  | nil => exact .inr ⟨nofun, rfl, rfl⟩
  | cons c cs ih =>
    by_cases hc : c = '\n'
    · subst hc
      refine .inl ⟨cs, ?_, ?_, ?_⟩ <;> simp [crlf_newline, hreturn, hnewline]
    · rw [crlf_cons hc]
      cases hp : p c with
      | true =>
        simp only [List.takeWhile_cons, List.dropWhile_cons, hp, if_true]
        exact ih.imp (fun ⟨more, hdrop, htake, hdrop'⟩ => ⟨more, hdrop, by rw [htake]; rfl, hdrop'⟩)
          fun ⟨hne, htake, hdrop⟩ => ⟨hne, by rw [htake], hdrop⟩
      | false =>
        simp only [List.takeWhile_cons, List.dropWhile_cons, hp, Bool.false_eq_true, if_false,
          crlf_cons hc]
        exact .inr ⟨fun more h => hc (List.cons.inj h).1, trivial, trivial⟩

end Text

open Scan

/-! One token -/

theorem newline_not_mem_takeWhile {p : Char → Bool} (hp : p '\n' = false) (cs : List Char) :
    '\n' ∉ cs.takeWhile p := fun hmem => by
  simp [List.mem_takeWhile_imp hmem] at hp

theorem string_kind {kind : Kind} {opening : List Char} {q : Char} {cs : List Char}
    (h : (Scan.string kind opening q cs).flaw = none) :
    (Scan.string kind opening q cs).kind = kind := by
  have hbody : ∀ {b : Body} {opening : List Char}, (b.toScan kind opening).flaw = none →
      (b.toScan kind opening).kind = kind := fun {b opening} h => by
    simp [Body.toScan, toScan_closed h]
  unfold Scan.string at h ⊢
  split <;> rename_i hq <;> simp only [hq] at h <;> exact hbody h

theorem newline_not_mem_scan {c : Char} {cs : List Char} (hflaw : (scan c cs).flaw = none)
    (hkind : (scan c cs).kind ∉ [.str, .template]) : '\n' ∉ (scan c cs).text := by
  have hscanned := scanned_scan c cs
  generalize scan c cs = t at hflaw hkind hscanned ⊢
  cases hscanned with
  | string hstring =>
    rw [string_kind hflaw] at hkind
    exact absurd hstring (by simpa using hkind)
  | number =>
    have hwhole : '\n' ∉ (c :: cs).takeWhile Number.isDigit :=
      newline_not_mem_takeWhile (by decide) _
    simp only [number]
    split
    · split
      · simpa using ⟨hwhole, newline_not_mem_takeWhile (by decide) _⟩
      · exact hwhole
    · exact hwhole
  | word =>
    simp only [word]
    split <;> exact newline_not_mem_takeWhile (by decide) _
  | symbol htext =>
    rw [htext]
    exact endsToken_newline.symbol _
  | unexpected => cases hflaw

theorem scan_crlf {c : Char} {cs : List Char} (hc : c ≠ '\n') (hflaw : (scan c cs).flaw = none)
    (hline : '\n' ∉ (scan c cs).text) :
    scan c (crlf cs) = { scan c cs with rest := crlf (scan c cs).rest } := by
  have htext := scan_text c cs
  by_cases hmem : '\n' ∈ cs
  · obtain ⟨r, a, rfl, hr⟩ := List.eq_append_cons_of_mem hmem
    -- The token ends on the line.
    obtain ⟨r', hrest⟩ : ∃ r', (scan c (r ++ '\n' :: a)).rest = r' ++ '\n' :: a := by
      rw [← List.cons_append, List.append_eq_append_iff] at htext
      obtain ⟨r', -, hrest⟩ | ⟨beyond, htext, hbeyond⟩ := htext
      · exact ⟨r', hrest⟩
      · cases beyond with
        | nil => exact ⟨[], hbeyond.symm⟩
        | cons d beyond =>
          obtain ⟨rfl, -⟩ := List.cons.inj hbeyond
          exact absurd (htext ▸ List.mem_append_right _ List.mem_cons_self) hline
    have hlength : a.length < (scan c (r ++ '\n' :: a)).rest.length := by
      simp [hrest]
      omega
    obtain ⟨_, -, hswapped⟩ := scan_swap (b := []) separates_newline c r hlength
    have hends : ∀ d ∈ ['\n'], EndsToken d := by simpa using endsToken_newline
    have halone : (scan c r).flaw = none :=
      flaw_of_append hends (by rw [hswapped]; exact hflaw)
    have hreturn : EndsToken '\r' := endsToken_blank (by decide)
    have hold : Parted ('\n' :: a) := fun d hd => Option.some.inj hd ▸ endsToken_newline
    have hnew : Parted (crlf ('\n' :: a)) := by
      rw [crlf_newline]
      exact fun d hd => Option.some.inj hd ▸ hreturn
    have hfirst := scan_parted hold c r halone
    have hsecond := scan_parted hnew c r halone
    have hrest' : '\n' ∉ (scan c r).rest := by
      have htext := scan_text c r
      intro hmem
      have hmem : '\n' ∈ c :: r := htext ▸ List.mem_append_right _ hmem
      exact (List.mem_cons.1 hmem).elim (fun h => hc h.symm) hr
    rw [crlf_append, crlf_of_not_mem hr, hsecond, hfirst]
    simp only [before, crlf_append, crlf_of_not_mem hrest']
  · have hrest : '\n' ∉ (scan c cs).rest := by
      intro hin
      have hin : '\n' ∈ c :: cs := htext ▸ List.mem_append_right _ hin
      exact (List.mem_cons.1 hin).elim (fun h => hc h.symm) hmem
    rw [crlf_of_not_mem hmem, crlf_of_not_mem hrest]

namespace Lexer

variable {s s' next : Lexer} {found : List Lexed}

theorem commentBody_crlf (cs : List Char) :
    commentBody (crlf cs) = (crlf (commentBody cs).1, (commentBody cs).2.map crlf) := by
  fun_induction commentBody cs with
  | case1 => rfl
  | case2 cs => rfl
  | case3 c cs hne text rest hbody ih =>
    rw [hbody] at ih
    by_cases hc : c = '\n'
    · subst hc
      rw [crlf_newline, commentBody.eq_3 _ _ (by simp), commentBody.eq_3 _ _ (by simp), ih,
        crlf_newline]
    · have hopen : ∀ more, c = '*' → crlf cs = '/' :: more → False := by
        intro more hstar hslash
        obtain ⟨more, rfl⟩ := eq_of_crlf hslash (by decide)
        exact hne more hstar rfl
      rw [crlf_cons hc, commentBody.eq_3 _ _ hopen, ih, crlf_cons hc]

theorem opensComment_crlf {c : Char} (hc : c ≠ '\n') (cs : List Char) :
    opensComment (crlf (c :: cs)) = opensComment (c :: cs) := by
  cases cs with
  | nil => rw [crlf_cons hc]; rfl
  | cons d cs =>
    by_cases hd : d = '\n'
    · subst hd
      simp [crlf_cons hc, crlf_newline, opensComment]
    · rw [crlf_cons hc, crlf_cons hd]
      by_cases hslash : c = '/' <;> by_cases hd : d = '/' <;> by_cases hs : d = '*' <;>
        simp_all [opensComment]

theorem blankLine_crlf {cs : List Char} (h : ∀ more, cs ≠ '\n' :: more) :
    blankLine (crlf cs) = blankLine cs := by
  cases cs with
  | nil => rfl
  | cons c cs =>
    have hc : c ≠ '\n' := fun hc => h cs (by rw [hc])
    cases cs with
    | nil => rw [crlf_cons hc]; rfl
    | cons d cs =>
      rw [crlf_cons hc]
      by_cases hd : d = '\n'
      · subst hd
        simp [crlf_newline, blankLine, hc]
      · by_cases hslash : c = '/' <;> by_cases hd' : d = '/' <;> simp_all [crlf_cons, blankLine]

theorem blankLine_behind_crlf (cs : List Char) :
    blankLine ((crlf cs).dropWhile isInlineBlank) = blankLine (cs.dropWhile isInlineBlank) := by
  obtain ⟨more, hdrop, -, hdrop'⟩ | ⟨hne, -, hdrop⟩ :=
    span_crlf (p := isInlineBlank) (by decide) (by decide) cs
  · rw [hdrop, hdrop']
    rfl
  · rw [hdrop, blankLine_crlf hne]

/-! Two lexers, one of them in the text with carriage returns -/

/-- The second lexer is as far in the new text as the first one in the old. Where the first is before a
newline, the second may have the carriage return before it behind it already. -/
inductive Returned (s : Lexer) : Lexer → Prop where
  | level : Returned s (s.withRest (crlf s.rest))
  | late {more : List Char} : s.rest = '\n' :: more →
    Returned s { s with rest := '\n' :: crlf more, pos := s.pos.right }

theorem Returned.atStart (h : Returned s s') : s'.atStart = s.atStart := by
  cases h <;> rfl

theorem Returned.nesting (h : Returned s s') : s'.nesting = s.nesting := by
  cases h <;> rfl

theorem Returned.hasTokens (h : Returned s s') : s'.hasTokens = s.hasTokens := by
  cases h <;> rfl

/-- Behind the blanks both are at the end of a line, the second one column further on, or both are at
the same place. -/
theorem Returned.skipBlanks (h : Returned s s') :
    (∃ more, s.skipBlanks.rest = '\n' :: more ∧ s'.skipBlanks =
      { s.skipBlanks with rest := '\n' :: crlf more, pos := s.skipBlanks.pos.right }) ∨
    (∀ more, s.skipBlanks.rest ≠ '\n' :: more) ∧
      s'.rest.takeWhile isInlineBlank = s.rest.takeWhile isInlineBlank ∧
      s'.skipBlanks = s.skipBlanks.withRest (crlf s.skipBlanks.rest) := by
  cases h with
  | level =>
    obtain ⟨more, hdrop, htake, hdrop'⟩ | ⟨hne, htake, hdrop⟩ :=
      span_crlf (p := isInlineBlank) (by decide) (by decide) s.rest
    · refine .inl ⟨more, hdrop, ?_⟩
      simp only [Lexer.skipBlanks, skip, withRest, htake, hdrop', Pos.advance_append]
      rfl
    · refine .inr ⟨hne, htake, ?_⟩
      simp only [Lexer.skipBlanks, skip, withRest, htake, hdrop]
  | @late more hr =>
    rw [skipBlanks_eq hr (by decide)]
    exact .inl ⟨more, hr, skipBlanks_eq rfl (by decide)⟩

theorem Returned.ahead (h : Returned s s') {c : Char} {cs : List Char}
    (hr : s.skipBlanks.rest = c :: cs) (hc : c ≠ '\n') :
    s'.rest.takeWhile isInlineBlank = s.rest.takeWhile isInlineBlank ∧
      s'.skipBlanks = s.skipBlanks.withRest (c :: crlf cs) := by
  obtain ⟨more, hmore, -⟩ | ⟨-, hwidth, hskip⟩ := h.skipBlanks
  · exact absurd (List.cons.inj (hr.symm.trans hmore)).1 hc
  · rw [hr, crlf_cons hc] at hskip
    exact ⟨hwidth, hskip⟩

theorem Returned.comment (h : Returned s s') {cs text rest : List Char}
    (hr : s.skipBlanks.rest = '/' :: '*' :: cs) (hbody : commentBody cs = (text, some rest)) :
    s'.rest.takeWhile isInlineBlank = s.rest.takeWhile isInlineBlank ∧
      s'.skipBlanks.rest = '/' :: '*' :: crlf cs ∧
      commentBody (crlf cs) = (crlf text, some (crlf rest)) ∧
      s'.skipBlanks.skip ('/' :: '*' :: crlf text) (crlf rest) =
        (s.skipBlanks.skip ('/' :: '*' :: text) rest).withRest (crlf rest) := by
  obtain ⟨hwidth, hskip⟩ := h.ahead hr (by decide)
  have hcomment : '/' :: '*' :: crlf text = crlf ('/' :: '*' :: text) := rfl
  refine ⟨hwidth, ?_, ?_, ?_⟩
  · rw [hskip]
    rfl
  · rw [commentBody_crlf, hbody]
    rfl
  · rw [hskip, hcomment]
    simp only [skip, withRest, Pos.advance_crlf]

theorem Returned.look (h : Returned s s') (hlook : Look s found next)
    (hclean : ∀ l ∈ found, l.error = none) : ∃ next', Look s' found next' ∧ Returned next next' := by
  cases hlook with
  | blank hblank =>
    refine ⟨{ s' with fresh := false }, .blank ?_, ?_⟩
    · obtain ⟨more, -, hskip⟩ | ⟨hne, -, hskip⟩ := h.skipBlanks
      · rw [hskip]
        rfl
      · rw [hskip, ← hblank]
        exact blankLine_crlf hne
    · cases h with
      | level => exact .level
      | late hr => exact .late hr
  | openComment hr hbody => cases hclean _ (List.mem_singleton.2 rfl)
  | comment hr hbody hblank =>
    obtain ⟨-, hr', hbody', hskip⟩ := h.comment hr hbody
    refine ⟨_, .comment hr' hbody' ((blankLine_behind_crlf _).trans hblank), ?_⟩
    rw [hskip]
    exact .level
  | @behind cs text rest behind hr hbody hblank hbehind =>
    obtain ⟨hwidth, hr', hbody', hskip⟩ := h.comment hr hbody
    have hbehind' : behind.withRest (crlf rest) =
        { s'.skipBlanks.skip ('/' :: '*' :: crlf text) (crlf rest) with fresh := false } := by
      rw [hskip, hbehind]
      rfl
    have hlook := Look.behind hr' hbody' ((blankLine_behind_crlf _).trans hblank) hbehind'
    rw [hwidth, applyIndent_withRest] at hlook
    refine ⟨_, hlook, ?_⟩
    have hrest : rest = (behind.applyIndent (widthOf (s.rest.takeWhile isInlineBlank))).2.rest := by
      rw [applyIndent_rest, hbehind]
      rfl
    rw [hrest]
    exact .level
  | @row inside hblank hr hinside =>
    obtain ⟨more, hmore, -⟩ | ⟨hne, hwidth, hskip⟩ := h.skipBlanks
    · rw [hmore] at hblank
      cases hblank
    · have hblank' : blankLine s'.skipBlanks.rest = false := by
        rw [hskip, ← hblank]
        exact blankLine_crlf hne
      have hr' : ∀ cs, s'.skipBlanks.rest ≠ '/' :: '*' :: cs := by
        intro cs hcs
        rw [hskip] at hcs
        obtain ⟨more, hmore⟩ := eq_of_crlf hcs (by decide)
        have hcs : crlf s.skipBlanks.rest = '/' :: '*' :: cs := hcs
        rw [hmore, crlf_cons (by decide)] at hcs
        obtain ⟨more, rfl⟩ := eq_of_crlf (List.cons.inj hcs).2 (by decide)
        exact hr more hmore
      have hinside' : inside.withRest (crlf s.skipBlanks.rest) =
          { s'.skipBlanks with fresh := false } := by
        rw [hskip, hinside]
        rfl
      have hlook := Look.row hblank' hr' hinside'
      rw [hwidth, applyIndent_withRest] at hlook
      refine ⟨_, hlook, ?_⟩
      have hrest : s.skipBlanks.rest =
          (inside.applyIndent (widthOf (s.rest.takeWhile isInlineBlank))).2.rest := by
        rw [applyIndent_rest, hinside]
      rw [hrest]
      exact .level

end Lexer

/-- A token without an error, which stays on its line if it is a string or a template. -/
structure Lexed.Clean (l : Lexed) : Prop where
  error : l.error = none
  line : l.token.kind ∈ [.str, .template] → '\n' ∉ l.token.lexeme.toList

/-- The end of one of the first `n` lines is one column further on. -/
def Lexed.moveEnd (n : Nat) (l : Lexed) : Lexed :=
  if l.token.kind = .newline ∧ l.token.pos.line ≤ n then
    { l with token := { l.token with pos := l.token.pos.right } }
  else l

theorem map_moveEnd {n : Nat} {ls : List Lexed}
    (h : ∀ l ∈ ls, l.token.kind = .newline → n < l.token.pos.line) :
    ls.map (·.moveEnd n) = ls := by
  refine (List.map_congr_left fun l hl => ?_).trans (List.map_id ls)
  exact if_neg fun ⟨hkind, hle⟩ => absurd (h l hl hkind) (Nat.not_lt.2 hle)

namespace Lexer

variable {s s' next : Lexer} {found : List Lexed} {text : List Char}

theorem Within.line (h : s.Within text) : s.pos.line + s.rest.count '\n' = 1 + text.count '\n' := by
  obtain ⟨before, rfl, hpos⟩ := h
  rw [hpos, Pos.advance_start, List.count_append]
  dsimp only
  omega

theorem Returned.lineEnd (h : Returned s s') {cs : List Char}
    (hr : s.skipBlanks.rest = '\n' :: cs) : s'.skipBlanks =
      { s.skipBlanks with rest := '\n' :: crlf cs, pos := s.skipBlanks.pos.right } := by
  obtain ⟨more, hmore, hskip⟩ | ⟨hne, -⟩ := h.skipBlanks
  · rwa [(List.cons.inj (hr.symm.trans hmore)).2]
  · exact absurd hr (hne cs)

theorem Returned.move (h : Returned s s') (hs : s.Within text) (hmove : Move s found next)
    (hclean : ∀ l ∈ found, l.Clean) : ∃ next',
      Move s' (found.map (·.moveEnd (text.count '\n'))) next' ∧ Returned next next' := by
  cases hmove with
  | @inside cs hr hn =>
    have hskip := h.lineEnd hr
    refine ⟨_, .inside (by rw [hskip]) (h.nesting ▸ hn), ?_⟩
    rw [hskip]
    exact .level
  | @newline cs hr hn =>
    have hskip := h.lineEnd hr
    have hline := hs.skipBlanks.line
    rw [hr, List.count_cons_self] at hline
    have hle : s.skipBlanks.pos.line ≤ text.count '\n' := by omega
    have hfound : (if s.hasTokens then [Lexer.lineEnd s.skipBlanks.pos] else []).map
        (·.moveEnd (text.count '\n')) =
          if s'.hasTokens then [Lexer.lineEnd s'.skipBlanks.pos] else [] := by
      rw [h.hasTokens, hskip]
      split
      · exact congrArg (· :: []) (if_pos ⟨rfl, hle⟩)
      · rfl
    rw [hfound]
    refine ⟨_, .newline (by rw [hskip]) (h.nesting.trans hn), ?_⟩
    rw [hskip]
    exact .level
  | @lineComment cs hr =>
    obtain ⟨-, hskip⟩ := h.ahead hr (by decide)
    have hr' : s'.skipBlanks.rest = '/' :: '/' :: crlf cs := by
      rw [hskip]
      rfl
    refine ⟨_, .lineComment hr', ?_⟩
    rw [hskip]
    obtain ⟨more, hdrop, htake, hdrop'⟩ | ⟨-, htake, hdrop⟩ :=
      span_crlf (p := (· != '\n')) (by decide) (by decide) cs
    · -- The comment takes the carriage return with it.
      rw [htake, hdrop', hdrop]
      have hlate := Returned.late
        (s := s.skipBlanks.skip ('/' :: '/' :: cs.takeWhile (· != '\n')) ('\n' :: more)) rfl
      rw [← List.cons_append, ← List.cons_append]
      simp only [skip, Pos.advance_append] at hlate ⊢
      exact hlate
    · rw [htake, hdrop]
      exact .level
  | openComment hr hbody => cases (hclean _ (List.mem_singleton.2 rfl)).error
  | blockComment hr hbody =>
    obtain ⟨-, hr', hbody', hskip⟩ := h.comment hr hbody
    refine ⟨_, .blockComment hr' hbody', ?_⟩
    rw [hskip]
    exact .level
  | @token c cs hr hc hcomment =>
    obtain ⟨-, hskip⟩ := h.ahead hr hc
    obtain ⟨herror, hline⟩ := hclean _ (List.mem_singleton.2 rfl)
    have hflaw : (scan c cs).flaw = none := Option.map_eq_none_iff.1 herror
    have hline : '\n' ∉ (scan c cs).text := by
      by_cases hkind : (scan c cs).kind ∈ [.str, .template]
      · simpa [place] using hline hkind
      · exact newline_not_mem_scan hflaw hkind
    have hscan := scan_crlf hc hflaw hline
    have hcomment' : opensComment (c :: crlf cs) = false := by
      rw [← crlf_cons hc, opensComment_crlf hc, hcomment]
    have hmove := Move.token (s := s') (by rw [hskip]; rfl) hc hcomment'
    have hkind := scan_kind c cs
    simp only [List.mem_cons, List.not_mem_nil, or_false, not_or] at hkind
    rw [map_moveEnd (List.forall_mem_singleton.2 fun hnewline => absurd hnewline hkind.1)]
    rw [hscan, hskip, h.nesting] at hmove
    exact ⟨_, hmove, .level⟩

theorem ne_newline_look (h : Look s found next) : ∀ l ∈ found, l.token.kind ≠ .newline := by
  obtain ⟨-, -, -, -, -, x, hx, hindent⟩ | hmarks := h.opens
  · intro l hl hkind
    rw [hx, List.mem_singleton] at hl
    rw [hl, hindent] at hkind
    cases hkind
  · intro l hl hkind
    simpa [hkind] using hmarks l hl

theorem Returned.run {source : String} (h : Returned s s') (hs : s.Within source.toList)
    (hclean : ∀ l ∈ s.run, l.Clean) :
    s'.run = s.run.map (·.moveEnd (source.toList.count '\n')) := by
  fun_induction Lexer.run s generalizing s' with
  | case1 s found hstep =>
    cases hstart : s.atStart with
    | true => simp [step_look hstart] at hstep
    | false =>
      obtain ⟨hr, hend⟩ | ⟨found', next, hstep', -⟩ := step_moves hstart
      · obtain ⟨more, hmore, -⟩ | ⟨-, -, hskip⟩ := h.skipBlanks
        · simp [hr] at hmore
        · have hrest : s'.skipBlanks.rest = [] := by
            rw [hskip, hr]
            rfl
          have hline := hs.skipBlanks.line
          rw [hr, List.count_nil] at hline
          have hfinish : s'.skipBlanks.finish = s.skipBlanks.finish := by
            rw [hskip]
            rfl
          rw [run_of_end (step_end (h.atStart.trans hstart) hrest), hfinish]
          obtain rfl : found = s.skipBlanks.finish := by simpa [hstep] using hend
          refine (map_moveEnd fun l hl _ => ?_).symm
          have hplace : l.token.pos.line = s.skipBlanks.pos.line := by
            obtain rfl | rfl | rfl := mem_finish hl <;> rfl
          omega
      · simp [hstep] at hstep'
  | case2 s found next hstep ih =>
    have hfound : ∀ l ∈ found, l.Clean := fun l hl => hclean l (List.mem_append_left _ hl)
    have hwithin := (step_within hs).2 next (by rw [hstep]; rfl)
    have hmore := fun {next'} (hnext : Returned next next') =>
      ih hnext hwithin fun l hl => hclean l (List.mem_append_right _ hl)
    rw [List.map_append]
    cases hstart : s.atStart with
    | true =>
      obtain ⟨hlayout, hnext⟩ : s.layout.1 = found ∧ s.layout.2 = next := by
        simpa [step_look hstart] using hstep
      have hlook := look_layout s
      rw [hlayout, hnext] at hlook
      obtain ⟨next', hlook', hreturned⟩ := h.look hlook fun l hl => (hfound l hl).error
      have hstep' := step_look (h.atStart.trans hstart)
      rw [hlook'.layout_eq] at hstep'
      rw [run_of_step hstep', hmore hreturned,
        map_moveEnd fun l hl hkind => absurd hkind (ne_newline_look hlook l hl)]
    | false =>
      obtain ⟨-, hend⟩ | ⟨found', next₁, hstep', hmove⟩ := step_moves hstart
      · simp [hstep] at hend
      · obtain ⟨rfl, rfl⟩ : found = found' ∧ next = next₁ := by simpa [hstep] using hstep'
        obtain ⟨next', hmove', hreturned⟩ := h.move hs hmove hfound
        rw [run_of_step (hmove'.step_eq (h.atStart.trans hstart)), hmore hreturned]

end Lexer

/-- The tokens of a text without errors are the same if its lines end with a carriage return and a
newline, down to their places, except that the end of a line is one column further on. Strings and
templates have to stay on their lines, as the carriage return is one of their characters otherwise. -/
theorem lex_crlf {source : String} (herrors : lexErrorsOf source = [])
    (hlines : ∀ t ∈ tokensOf source, t.kind ∈ [.str, .template] → '\n' ∉ t.lexeme.toList) :
    lex (String.ofList (crlf source.toList)) =
      (lex source).map (·.moveEnd (source.toList.count '\n')) := by
  have hclean : ∀ l ∈ lex source, l.Clean := fun l hl =>
    ⟨List.filterMap_eq_nil_iff.1 herrors l hl, hlines _ (List.mem_map_of_mem hl)⟩
  have hlex : lex (String.ofList (crlf source.toList)) =
      (Lexer.start (crlf source.toList)).run := by
    rw [lex, String.toList_ofList]
  rw [hlex]
  exact Lexer.Returned.run (s := .start source.toList) .level ⟨[], rfl, rfl⟩ hclean

/-- A line comment behind tokens, an empty line, a line end in brackets, a comment over two lines, and a
last line without an end. -/
def mixedText : String := "if a: // b\n\n    f(c,\n  d)\n/* e\n*/ g\nh"

theorem lex_crlf_mixedText : lexErrorsOf mixedText = [] ∧
    (∀ t ∈ tokensOf mixedText, t.kind ∈ [.str, .template] → '\n' ∉ t.lexeme.toList) ∧
    lex (String.ofList (crlf mixedText.toList)) = (lex mixedText).map (·.moveEnd 6) ∧
    ((lex mixedText).filter (·.token.kind = .newline)).map (·.token.pos) =
      [⟨1, 11⟩, ⟨4, 5⟩, ⟨6, 5⟩, ⟨7, 2⟩] := by
  have herrors : lexErrorsOf mixedText = [] := by decide +kernel
  have hlines : ∀ t ∈ tokensOf mixedText, t.kind ∈ [.str, .template] →
      '\n' ∉ t.lexeme.toList := by decide +kernel
  exact ⟨herrors, hlines, lex_crlf herrors hlines, by decide +kernel⟩

end Spellbook
