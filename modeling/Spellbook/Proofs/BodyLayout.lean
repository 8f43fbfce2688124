import Spellbook.Proofs.Program.Parser.Mirrors.Programs

/-! A body of one statement may stand on the line of its colon or alone on a line below. The two
programs are the same as long as the line behind the body does not count as a deeper one. -/
namespace Spellbook

open Spellbook.Parser

theorem flawless_of_clean {source : String} (hclean : (parse source).diagnostics = []) :
    ∀ l ∈ (lex source).map Lexed.bare, l.error = none :=
  (lexErrorsOf_eq_nil source).1 (program_of_no_diagnostics hclean).1

theorem eq_ok_of_flawless {ls : List Lexed} (h : ∀ l ∈ ls, l.error = none) :
    ls = (ls.map (·.token)).map .ok := by
  rw [List.map_map]
  refine (List.map_id ls).symm.trans (List.map_congr_left fun l hl => ?_)
  rw [Function.comp_apply, Lexed.ok, ← h l hl, id]

theorem ne_nil_behind_line {source : String} {X more : List Token}
    (h : (tokensOf source).map Token.bare = X ++ .lineEnd :: more) : more ≠ [] := by
  rintro rfl
  obtain ⟨A, B, hsplit, -, hB⟩ := List.map_eq_append_iff.1 h
  obtain ⟨t, hnil, rfl, ht, hmap⟩ := List.map_eq_cons_iff.1 hB
  obtain rfl := List.map_eq_nil_iff.1 hmap
  have hends := endsWithEof_tokensOf source
  rw [hsplit] at hends
  have heof := (hends.of_suffix (List.suffix_append _ _) (List.cons_ne_nil _ _)).eof_iff.2 rfl
  have hkind : t.kind = .newline := congrArg Token.kind ht
  cases hkind.symm.trans heof

section Line

variable {line more : List Token} (hline : IsSimpleLine line)

include hline

theorem IsSimpleLine.exists_head : ∃ t rest, line = t :: rest ∧ t.kind.isSolid = true := by
  obtain ⟨t, ht, -⟩ := hline.first
  obtain ⟨rest, rfl⟩ := List.head?_eq_some_iff.1 ht
  exact ⟨t, rest, rfl, hline.solid t List.mem_cons_self⟩

theorem IsSimpleLine.undivided_ok : ∀ x ∈ line.map Lexed.ok, x.token.kind ≠ .newline := by
  rintro x hx hkind
  obtain ⟨t, ht, rfl⟩ := List.mem_map.1 hx
  have hsolid := hline.solid t ht
  rw [show t.kind = .newline from hkind] at hsolid
  cases hsolid

/-- No INDENT follows a body on the line of its colon if the program has no diagnostics. -/
theorem not_indent_behind_inline {source : String} {X : List Token}
    (hclean : (parse source).diagnostics = [])
    (htokens : (tokensOf source).map Token.bare = X ++ .colon :: inlineBody line more) :
    more.head? ≠ some .indent := by
  intro hhead
  obtain ⟨rest, rfl⟩ := List.head?_eq_some_iff.1 hhead
  obtain ⟨Y, hY⟩ := colon_before_indent (X := X ++ .colon :: (line ++ [.lineEnd])) hclean
    (by simpa [inlineBody] using htokens)
  -- The body ends with a token of its statement, which is no colon.
  obtain rfl | ⟨init, u, rfl⟩ := List.eq_nil_or_concat line
  · obtain ⟨t, ht, -⟩ := hline.first
    cases ht
  · have hends : Y ++ [Kind.symbol .colon] =
        (X ++ .colon :: init).map (·.kind) ++ [u.kind] := by
      have hline : Y ++ [Kind.symbol .colon] ++ [Kind.newline] =
          (X ++ .colon :: init).map (·.kind) ++ [u.kind] ++ [Kind.newline] := by
        simpa [Token.lineEnd] using hY
      exact List.append_cancel_right hline
    exact hline.last u (by simp) (List.cons.inj (List.append_inj' hends rfl).2).1.symm

end Line

theorem Parser.Around.symm {D D' : List Token} {n : Nat} {s t : State} (h : Around D D' n s t) :
    Around D' D n t s :=
  h.imp (fun ⟨X, hs, ht, hn⟩ => ⟨X, ht, hs, hn⟩) Eq.symm

namespace Lexer.Twins

variable {inline below : String} {before : List Lexed} {line more : List Token}
  {first second : List Lexed}

theorem tokens (h : Twins inline below before (line.map .ok) first second) :
    (tokensOf inline).map Token.bare =
      before.map (·.token) ++ .colon :: inlineBody line (first.map (·.token)) ∧
    (tokensOf below).map Token.bare = before.map (·.token) ++
      .colon :: .lineEnd :: .indent :: (line ++ .lineEnd :: second.map (·.token)) := by
  constructor
  · rw [bare_tokensOf, h.inline]
    simp [inlineBody, Lexed.ok, Function.comp_def]
  · rw [bare_tokensOf, h.below]
    simp [Lexed.ok, Function.comp_def]

theorem ne_nil_first (h : Twins inline below before (line.map .ok) first second) :
    first.map (·.token) ≠ [] :=
  ne_nil_behind_line (X := before.map (·.token) ++ .colon :: line)
    (by simpa [inlineBody] using h.tokens.1)

theorem around (h : Twins inline below before (line.map .ok) first (.ok .dedent :: first)) :
    Around (inlineBody line (first.map (·.token))) (blockBody line (first.map (·.token))) 0
      (State.start inline) (State.start below) := by
  obtain ⟨hinline, hbelow⟩ := h.tokens
  refine .inl ⟨before.map (·.token), ?_, ?_, ?_⟩
  · rw [view_start, hinline]
  · rw [view_start, hbelow]
    rfl
  · rw [List.map_map]
    exact h.outside

theorem flawless_iff (h : Twins inline below before (line.map .ok) first (.ok .dedent :: first)) :
    lexErrorsOf inline = [] ↔ lexErrorsOf below = [] := by
  rw [lexErrorsOf_eq_nil, lexErrorsOf_eq_nil, h.inline, h.below]
  simp only [List.forall_mem_append, List.forall_mem_cons, Lexed.ok, true_and]

theorem same_below (hline : IsSimpleLine line)
    (h : Twins inline below before (line.map .ok) first (.ok .dedent :: first))
    (hclean : (parse inline).diagnostics = []) : SameProgram inline below :=
  sameProgram_of_rel (readsMarked_inline hline h.ne_nil_first) (fun _ _ h => h.1)
    ⟨found_start below, h.around⟩ hclean (h.flawless_iff.1 (program_of_no_diagnostics hclean).1)

theorem same_inline (hline : IsSimpleLine line)
    (h : Twins inline below before (line.map .ok) first (.ok .dedent :: first))
    (hclean : (parse below).diagnostics = []) : SameProgram below inline :=
  sameProgram_of_rel (readsMarked_block hline h.ne_nil_first) (fun _ _ h => h.1)
    ⟨found_start inline, h.around.symm⟩ hclean (h.flawless_iff.2 (program_of_no_diagnostics hclean).1)

theorem closes (h : Twins inline below before (line.map .ok) first second) :
    second = .ok .dedent :: first ∨ (first.map (·.token)).head? = some .indent ∨
      lexErrorsOf inline ≠ [] ∧ lexErrorsOf below ≠ [] := by
  cases h.fork with
  | closed heq => exact .inl heq
  | deeper heq => exact .inr (.inl (by rw [heq]; rfl))
  | flawed hfirst hsecond =>
    obtain ⟨x, hx, hflaw⟩ := hfirst
    obtain ⟨y, hy, hflaw'⟩ := hsecond
    refine .inr (.inr ⟨fun hnone => ?_, fun hnone => ?_⟩)
    · have hnil := (lexErrorsOf_eq_nil inline).1 hnone x (by rw [h.inline]; simp [hx])
      simp [hnil] at hflaw
    · have hnil := (lexErrorsOf_eq_nil below).1 hnone y (by rw [h.below]; simp [hy])
      simp [hnil] at hflaw'

end Lexer.Twins

/-- The text with other characters between a colon and what is behind it. -/
def withGap (head gap after : List Char) : String := String.ofList (head ++ ':' :: (gap ++ after))

theorem toList_withGap (head gap after : List Char) :
    (withGap head gap after).toList = head ++ ':' :: (gap ++ after) :=
  String.toList_ofList

section Moves

variable {source : String} {head gap after : List Char} {s : Lexer} {line more : List Token}
  (hclean : (parse source).diagnostics = []) (h : s.AtColon source head (gap ++ after))

include hclean h

omit hclean in
theorem Lexer.AtColon.exists_indents : ∃ w ws, s.indents = w :: ws := by
  refine List.exists_cons_of_ne_nil fun hnil => ?_
  have hlast := h.reached.stacked.last
  simp [hnil] at hlast

theorem Lexer.AtColon.bare_run {ts : List Token} (hrun : s.run.map (·.token.bare) = ts) :
    s.run.map Lexed.bare = ts.map .ok := by
  obtain ⟨before, -, hlex, -⟩ := h.tokens h.text
  have hflawless := flawless_of_clean hclean
  rw [hlex, List.map_append] at hflawless
  rw [eq_ok_of_flawless fun l hl => hflawless l (List.mem_append_right _ hl), ← hrun]
  simp [Lexed.bare]

variable (hline : IsSimpleLine line)

include hline

/-- A statement on the line of its colon is moved to a line below. -/
theorem inline_moves_below (hrun : s.run.map (·.token.bare) = .colon :: inlineBody line more)
    (hplace : s.run[1]?.map (·.token.pos) = some (Pos.start.advance (head ++ ':' :: gap)))
    {indent : List Char} (hindent : indent.all Lexer.isInlineBlank = true)
    (hwidth : s.indents.headD 0 < Lexer.widthOf indent) :
    SameProgram source (withGap head ('\n' :: indent) after) := by
  obtain ⟨w, ws, hi⟩ := h.exists_indents
  rw [hi] at hwidth
  obtain ⟨t, rest, hrest, hsolid⟩ := hline.exists_head
  have htokens := hrun
  rw [hrest] at htokens
  obtain ⟨y, ls, hy, -, hls⟩ := List.map_eq_cons_iff.1 htokens
  obtain ⟨x, xs, rfl, hx, -⟩ := List.map_eq_cons_iff.1 hls
  have hsolid : x.token.kind.isSolid = true := by rwa [← hx] at hsolid
  obtain ⟨before, line', first, second, hlex, htwins⟩ := h.twins_below hi hy hsolid
    (by simpa [hy] using hplace) hindent hwidth (toList_withGap head ('\n' :: indent) after)
  have hbare := h.bare_run hclean hrun
  have hinline := htwins.inline
  rw [hlex, List.map_append, hbare] at hinline
  obtain ⟨rfl, rfl⟩ := Lexer.lines_eq hline.undivided_ok htwins.undivided (by
    simpa [inlineBody] using (List.cons.inj (List.append_cancel_left hinline)).2)
  obtain rfl | hdeeper | ⟨hflaw, -⟩ := htwins.closes
  · exact htwins.same_below hline hclean
  · exact absurd hdeeper (not_indent_behind_inline hline hclean htwins.tokens.1)
  · exact absurd (program_of_no_diagnostics hclean).1 hflaw

/-- A statement that is alone on a line below is moved to the line of its colon. -/
theorem below_moves_inline (hrun : s.run.map (·.token.bare) = .colon :: blockBody line more)
    (hplace : s.run[3]?.map (·.token.pos) = some (Pos.start.advance (head ++ ':' :: gap)))
    {blanks : List Char} (hblanks : blanks.all Lexer.isInlineBlank = true) :
    ∃ before behind, lex source = before ++ s.run ∧
      (tokensOf (withGap head blanks after)).map Token.bare =
        before.map (·.token.bare) ++ .colon :: inlineBody line behind ∧
      (SameProgram source (withGap head blanks after) ↔ behind.head? ≠ some .indent) := by
  obtain ⟨w, ws, hi⟩ := h.exists_indents
  obtain ⟨t, rest, hrest, hsolid⟩ := hline.exists_head
  have htokens := hrun
  rw [hrest] at htokens
  obtain ⟨y, ls, hy, -, hls⟩ := List.map_eq_cons_iff.1 htokens
  obtain ⟨z, ms, rfl, -, hms⟩ := List.map_eq_cons_iff.1 hls
  obtain ⟨v, ns, rfl, -, hns⟩ := List.map_eq_cons_iff.1 hms
  obtain ⟨x, xs, rfl, hx, -⟩ := List.map_eq_cons_iff.1 hns
  have hsolid : x.token.kind.isSolid = true := by rwa [← hx] at hsolid
  have hbare := h.bare_run hclean hrun
  have hbehind := hbare
  rw [Lexer.run_colon h.fresh h.nesting h.rest] at hbehind
  obtain ⟨before, line', first, second, hlex, htwins⟩ := h.twins_inline hi (List.cons.inj hbehind).2
    hy hsolid (by simpa [hy] using hplace) hblanks (toList_withGap head blanks after)
  have hbelow := htwins.below
  rw [hlex, List.map_append, hbare] at hbelow
  obtain ⟨rfl, rfl⟩ := Lexer.lines_eq hline.undivided_ok htwins.undivided (by
    simpa [blockBody] using (List.cons.inj (List.append_cancel_left hbelow)).2)
  refine ⟨before, first.map (·.token), hlex, ?_, fun hsame => ?_, fun hhead => ?_⟩
  · rw [htwins.tokens.1, List.map_map]
    rfl
  · exact not_indent_behind_inline hline hsame.clean htwins.tokens.1
  · obtain heq | hdeeper | ⟨-, hflaw⟩ := htwins.closes
    · rw [heq] at htwins
      exact htwins.same_inline hline hclean
    · exact absurd hdeeper hhead
    · exact absurd (program_of_no_diagnostics hclean).1 hflaw

end Moves

/-- In a program without diagnostics, a statement on the line of its colon may be moved to a line below
that is deeper, and a statement that is alone on a line below may be moved to the line of its colon
if no INDENT follows it there. The program stays the same. -/
theorem body_moves {source : String} {head gap after : List Char} {s : Lexer} {line : List Token}
    (hclean : (parse source).diagnostics = []) (h : s.AtColon source head (gap ++ after))
    (hline : IsSimpleLine line) :
    (∀ more, s.run.map (·.token.bare) = .colon :: inlineBody line more →
      s.run[1]?.map (·.token.pos) = some (Pos.start.advance (head ++ ':' :: gap)) →
      ∀ indent, indent.all Lexer.isInlineBlank = true →
        s.indents.headD 0 < Lexer.widthOf indent →
        SameProgram source (withGap head ('\n' :: indent) after)) ∧
    (∀ more, s.run.map (·.token.bare) = .colon :: blockBody line more →
      s.run[3]?.map (·.token.pos) = some (Pos.start.advance (head ++ ':' :: gap)) →
      ∀ blanks, blanks.all Lexer.isInlineBlank = true →
        ∃ before behind, lex source = before ++ s.run ∧
          (tokensOf (withGap head blanks after)).map Token.bare =
            before.map (·.token.bare) ++ .colon :: inlineBody line behind ∧
          (SameProgram source (withGap head blanks after) ↔ behind.head? ≠ some .indent)) := by
  refine ⟨fun more hrun hplace indent hindent hwidth => ?_,
    fun more hrun hplace blanks hblanks => ?_⟩
  · exact inline_moves_below hclean h hline hrun hplace hindent hwidth
  · exact below_moves_inline hclean h hline hrun hplace hblanks

/-- The lexer before the colon of a text that starts with a short condition. -/
def beforeColon (source : String) : Lexer := (Lexer.start source.toList).next.next.next

theorem atColon_beforeColon {source : String} {head behind : List Char}
    (h : (beforeColon source).fresh = false ∧ (beforeColon source).nesting = 0 ∧
      (beforeColon source).skipBlanks.rest = ':' :: behind ∧ source.toList = head ++ ':' :: behind) :
    (beforeColon source).AtColon source head behind :=
  ⟨Lexer.Reached.start.next.next.next, h.1, h.2.1, h.2.2.1, h.2.2.2⟩

def named (name : String) : Token := ⟨.ident, name, .start, none⟩

theorem isSimpleLine_named (name : String) : IsSimpleLine [named name] := by
  refine ⟨?_, ?_, ⟨named name, rfl, rfl⟩, ?_⟩
  all_goals
    intro t ht
    obtain rfl : named name = t := by simpa [eq_comm] using ht
    first | rfl | nofun

theorem body_moves_below : (parse "if x: a\nb\n").diagnostics = [] ∧
    SameProgram "if x: a\nb\n" (withGap "if x".toList "\n  ".toList "a\nb\n".toList) := by
  have hclean : (parse "if x: a\nb\n").diagnostics = [] := by decide +kernel
  have hcolon : (beforeColon "if x: a\nb\n").AtColon "if x: a\nb\n" "if x".toList
      (" ".toList ++ "a\nb\n".toList) := atColon_beforeColon (by decide +kernel)
  refine ⟨hclean, (body_moves hclean hcolon (isSimpleLine_named "a")).1 [named "b", .lineEnd, .eof] ?_
    ?_ "  ".toList ?_ ?_⟩
  all_goals decide +kernel

/-- A line of two block comments counts as a line, so that a block opens where a statement before it
leaves the deeper block. -/
theorem not_body_moves_inline : ¬ ∀ (source : String) (head gap after blanks : List Char) (s : Lexer)
    (line more : List Token), (parse source).diagnostics = [] →
    s.AtColon source head (gap ++ after) → IsSimpleLine line →
    s.run.map (·.token.bare) = .colon :: blockBody line more →
    s.run[3]?.map (·.token.pos) = some (Pos.start.advance (head ++ ':' :: gap)) →
    blanks.all Lexer.isInlineBlank = true →
    SameProgram source (withGap head blanks after) := by
  intro hall
  have hsame := hall "if x:\n    a\n    /* c */ /* d */\nb\n" "if x".toList "\n    ".toList
    "a\n    /* c */ /* d */\nb\n".toList " ".toList _ [named "a"] [named "b", .lineEnd, .eof]
    (by decide +kernel) (atColon_beforeColon (by decide +kernel)) (isSimpleLine_named "a")
    (by decide +kernel) (by decide +kernel) (by decide +kernel)
  have hflawed : (parse (withGap "if x".toList " ".toList
    "a\n    /* c */ /* d */\nb\n".toList)).diagnostics ≠ [] := by decide +kernel
  exact hflawed hsame.clean

end Spellbook
