import Spellbook.Proofs.Token.Lossless
import Spellbook.Proofs.Token.Moves

/-! Two lexers with the same text before them. They differ in their places, and one of them may have
one block more open. Within a line they find the same tokens, and behind it the inner block is closed
where a line is looked at that is not deeper than the outer one. -/
namespace Spellbook.Lexer

/-- The same lexer at another place and in other blocks. -/
def relocate (s : Lexer) (pos : Pos) (indents : List Nat) : Lexer :=
  { s with pos := pos, indents := indents }

variable {s next : Lexer} {found : List Lexed}

theorem Move.relocate (h : Move s found next) (pos : Pos) (indents : List Nat) :
    ∃ found' pos', Move (s.relocate pos indents) found' (next.relocate pos' indents) ∧
      found'.map Lexed.bare = found.map Lexed.bare := by
  cases h with
  | inside hr hn => exact ⟨_, _, .inside (s := s.relocate pos indents) hr hn, rfl⟩
  | newline hr hn =>
    refine ⟨_, _, .newline (s := s.relocate pos indents) hr hn, ?_⟩
    cases ht : s.hasTokens <;> simp [Lexer.relocate, ht, lineEnd, Lexed.bare, Token.bare]
  | lineComment hr => exact ⟨_, _, .lineComment (s := s.relocate pos indents) hr, rfl⟩
  | openComment hr hbody =>
    exact ⟨_, _, .openComment (s := s.relocate pos indents) hr hbody, rfl⟩
  | blockComment hr hbody =>
    exact ⟨_, _, .blockComment (s := s.relocate pos indents) hr hbody, rfl⟩
  | token hr hc hcomment =>
    refine ⟨_, _, .token (s := s.relocate pos indents) hr hc hcomment, ?_⟩
    simp [bare_place]

theorem Look.relocate (h : Look s found next) (pos : Pos) (indents : List Nat) :
    (next.indents = s.indents ∧ next.nesting = s.nesting ∧ next.hasTokens = s.hasTokens ∧
      blankLine next.skipBlanks.rest = true ∧ (found = [] ∨ ∃ x ∈ found, x.error.isSome = true) ∧
      ∃ found' pos', (s.relocate pos indents).layout = (found', next.relocate pos' indents) ∧
        found'.map Lexed.bare = found.map Lexed.bare) ∨
    ∃ (inside : Lexer) (width : Nat) (pos' : Pos), inside.indents = s.indents ∧
      (found, next) = inside.applyIndent width ∧
      (s.relocate pos indents).layout = (inside.relocate pos' indents).applyIndent width := by
  cases h with
  | blank hblank =>
    refine .inl ⟨rfl, rfl, rfl, hblank, .inl rfl, ?_⟩
    exact ⟨_, _, (Look.blank (s := s.relocate pos indents) hblank).layout_eq, rfl⟩
  | openComment hr hbody =>
    refine .inl ⟨rfl, rfl, rfl, rfl, .inr ⟨_, List.mem_singleton.2 rfl, rfl⟩, ?_⟩
    exact ⟨_, _, (Look.openComment (s := s.relocate pos indents) hr hbody).layout_eq, rfl⟩
  | comment hr hbody hblank =>
    refine .inl ⟨rfl, rfl, rfl, hblank, .inl rfl, ?_⟩
    exact ⟨_, _, (Look.comment (s := s.relocate pos indents) hr hbody hblank).layout_eq, rfl⟩
  | @behind cs text rest behind hr hbody hblank hbehind =>
    refine .inr ⟨behind, _, ((s.relocate pos indents).skipBlanks.skip ('/' :: '*' :: text) rest).pos,
      by rw [hbehind]; rfl, rfl, ?_⟩
    exact (Look.behind (s := s.relocate pos indents) hr hbody hblank
      (by rw [hbehind]; rfl)).layout_eq
  | @row inside hblank hr hinside =>
    refine .inr ⟨inside, _, (s.relocate pos indents).skipBlanks.pos, by rw [hinside]; rfl, rfl, ?_⟩
    exact (Look.row (s := s.relocate pos indents) hblank hr (by rw [hinside]; rfl)).layout_eq

theorem applyIndent_relocate (s : Lexer) (pos : Pos) (indents : List Nat) (width : Nat) :
    ((s.relocate pos indents).applyIndent width).1.map Lexed.bare = (relevel indents width).1 ∧
      ((s.relocate pos indents).applyIndent width).2 =
        (s.applyIndent width).2.relocate pos (relevel indents width).2 := by
  obtain ⟨hbare, hnext⟩ := applyIndent_relevel (s.relocate pos indents) width
  refine ⟨hbare, ?_⟩
  rw [hnext, (applyIndent_relevel s width).2]
  rfl

theorem bare_run_relocate (s : Lexer) (pos : Pos) :
    (s.relocate pos s.indents).run.map Lexed.bare = s.run.map Lexed.bare := by
  induction hm : s.measure using Nat.strongRecOn generalizing s pos with
  | ind m ih =>
    subst hm
    cases hstart : s.atStart with
    | true =>
      have hstep := step_look hstart
      have hstep' := step_look (s := s.relocate pos s.indents) hstart
      have hless := measure_step hstep
      obtain ⟨hi, -, -, -, -, found', pos', hlayout, hbare⟩ |
          ⟨inside, width, pos', hi, happly, hlayout⟩ := (look_layout s).relocate pos s.indents
      · rw [run_of_step hstep, run_of_step hstep', List.map_append, List.map_append, hlayout, hbare]
        rw [← hi, ih _ hless _ _ rfl]
      · obtain ⟨hbare, hnext⟩ := applyIndent_relevel inside width
        obtain ⟨hbare', hnext'⟩ := applyIndent_relocate inside pos' s.indents width
        have hlook : s.layout = inside.applyIndent width := happly
        rw [run_of_step hstep, run_of_step hstep', List.map_append, List.map_append, hlayout, hlook,
          hbare, hbare', hnext', hi]
        rw [hlook] at hless
        rw [← ih _ hless _ pos' rfl, hnext, hi]
    | false =>
      obtain ⟨hr, hstep⟩ | ⟨found, next, hstep, hmove⟩ := step_moves hstart
      · have hstep' := step_end (s := s.relocate pos s.indents) hstart hr
        rw [run_of_end hstep, run_of_end hstep', bare_finish, bare_finish]
        rfl
      · obtain ⟨found', pos', hmove', hbare⟩ := hmove.relocate pos s.indents
        have hstep' := hmove'.step_eq (s := s.relocate pos s.indents) hstart
        rw [run_of_step hstep, run_of_step hstep', List.map_append, List.map_append, hbare]
        have hi : next.indents = s.indents := by cases hmove <;> rfl
        rw [← hi, ih _ (measure_step hstep) _ _ rfl]

/-! One block more -/

/-- The tokens of two lexers, of which the second has one block more open. The block is closed at
once, or the first lexer has found a line that is deeper than its own blocks, or both have found a
flaw. -/
inductive Fork (first second : List Lexed) : Prop where
  | closed : second = .ok .dedent :: first → Fork first second
  | deeper {more : List Lexed} : first = .ok .indent :: more → Fork first second
  | flawed : (∃ x ∈ first, x.error.isSome = true) → (∃ x ∈ second, x.error.isSome = true) →
    Fork first second

theorem Fork.before {first second : List Lexed} (h : Fork first second) {more : List Lexed}
    (hmore : more = [] ∨ ∃ x ∈ more, x.error.isSome = true) : Fork (more ++ first) (more ++ second) := by
  obtain rfl | ⟨x, hx, herror⟩ := hmore
  · exact h
  · exact .flawed ⟨x, List.mem_append_left _ hx, herror⟩ ⟨x, List.mem_append_left _ hx, herror⟩

theorem blankLine_behind_comment (cs : List Char) :
    blankLine ((cs.dropWhile (· != '\n')).dropWhile isInlineBlank) = true := by
  induction cs with
  | nil => rfl
  | cons c cs ih =>
    by_cases hc : c = '\n'
    · subst hc
      rfl
    · simpa [List.dropWhile_cons, hc] using ih

theorem opensComment_of_blankLine {c : Char} {cs : List Char}
    (h : blankLine (c :: cs) = true) (hc : c ≠ '\n') : opensComment (c :: cs) = true := by
  unfold blankLine at h
  split at h
  · rename_i hnil
    cases hnil
  · rename_i hcons
    exact absurd (List.cons.inj hcons).1 hc
  · rename_i hslashes
    rw [hslashes]
    rfl
  · cases h

section Deeper

variable {w e : Nat} {ws : List Nat} (he : w < e)

include he

theorem fork_between (hi : s.indents = w :: ws) (hn : s.nesting = 0) (ht : s.hasTokens = false)
    (hs : s.fresh = true ∨ blankLine s.skipBlanks.rest = true) (pos : Pos) :
    Fork (s.run.map Lexed.bare) ((s.relocate pos (e :: w :: ws)).run.map Lexed.bare) := by
  induction hm : s.measure using Nat.strongRecOn generalizing s pos with
  | ind m ih =>
    subst hm
    cases hstart : s.atStart with
    | true =>
      have hstep := step_look hstart
      have hstep' := step_look (s := s.relocate pos (e :: w :: ws)) hstart
      have hless := measure_step hstep
      rw [run_of_step hstep, run_of_step hstep', List.map_append, List.map_append]
      obtain ⟨hi', hn', ht', hblank, hfound, found', pos', hlayout, hbare⟩ |
          ⟨inside, width, pos', hi', happly, hlayout⟩ :=
        (look_layout s).relocate pos (e :: w :: ws)
      · rw [hlayout, hbare]
        refine Fork.before (ih _ hless ?_ ?_ ?_ (.inr hblank) pos' rfl) ?_
        · exact hi'.trans hi
        · exact hn'.trans hn
        · exact ht'.trans ht
        · obtain hnone | ⟨x, hx, herror⟩ := hfound
          · exact .inl (by rw [hnone]; rfl)
          · exact .inr ⟨x.bare, List.mem_map_of_mem hx, by simpa [Lexed.bare] using herror⟩
      · -- The width of this line decides whether the inner block is closed before it.
        obtain ⟨hbare, hnext⟩ := applyIndent_relevel inside width
        obtain ⟨hbare', hnext'⟩ := applyIndent_relocate inside pos' (e :: w :: ws) width
        have hlook : s.layout = inside.applyIndent width := happly
        rw [hlayout, hlook, hbare, hbare', hnext', hi', hi]
        by_cases hwidth : width ≤ w
        · refine .closed ?_
          rw [relevel_shallower hwidth he]
          have hsame := bare_run_relocate (inside.applyIndent width).2 pos'
          rw [hnext, hi', hi] at hsame ⊢
          rw [← hsame]
          rfl
        · rw [relevel_deeper (Nat.lt_of_not_le hwidth)]
          exact .deeper rfl
    | false =>
      have hfresh : s.fresh = false := by simpa [atStart, hn] using hstart
      have hblank := hs.resolve_left (by simp [hfresh])
      obtain ⟨hr, hstep⟩ | ⟨found, next, hstep, hmove⟩ := step_moves hstart
      · have hstep' := step_end (s := s.relocate pos (e :: w :: ws)) hstart hr
        refine .closed ?_
        rw [run_of_end hstep, run_of_end hstep', bare_finish, bare_finish]
        simp [skipBlanks, skip, relocate, ht, hi, List.replicate_succ, Lexed.ok]
      · obtain ⟨found', pos', hmove', hbare⟩ := hmove.relocate pos (e :: w :: ws)
        have hstep' := hmove'.step_eq (s := s.relocate pos (e :: w :: ws)) hstart
        have hnext := fun hi hn ht hs =>
          ih _ (measure_step hstep) (s := next) hi hn ht hs pos' rfl
        rw [run_of_step hstep, run_of_step hstep', List.map_append, List.map_append, hbare]
        cases hmove with
        | inside hr hpos => exact absurd hn (Nat.ne_of_gt hpos)
        | newline hr hn' =>
          rw [ht]
          exact hnext hi hn rfl (.inl rfl)
        | lineComment hr => exact hnext hi hn ht (.inr (blankLine_behind_comment _))
        | openComment hr hbody => simp [hr, blankLine] at hblank
        | blockComment hr hbody => simp [hr, blankLine] at hblank
        | token hr hc hcomment =>
          rw [hr] at hblank
          rw [opensComment_of_blankLine hblank hc] at hcomment
          cases hcomment

theorem fork_line (hi : s.indents = w :: ws) (hf : s.fresh = false) (ht : s.hasTokens = true)
    (pos : Pos) : ∃ line first second, (∀ x ∈ line, x.token.kind ≠ .newline) ∧
      s.run.map Lexed.bare = line ++ .ok .lineEnd :: first ∧
      (s.relocate pos (e :: w :: ws)).run.map Lexed.bare = line ++ .ok .lineEnd :: second ∧
      Fork first second := by
  induction hm : s.measure using Nat.strongRecOn generalizing s pos with
  | ind m ih =>
    subst hm
    have hstart : s.atStart = false := by simp [atStart, hf]
    obtain ⟨hr, hstep⟩ | ⟨found, next, hstep, hmove⟩ := step_moves hstart
    · have hstep' := step_end (s := s.relocate pos (e :: w :: ws)) hstart hr
      rw [run_of_end hstep, run_of_end hstep', bare_finish, bare_finish]
      have hdedents : ∀ n : Nat, (List.replicate (n + 1) Token.dedent ++ [Token.eof]).map Lexed.ok =
          .ok .dedent :: (List.replicate n Token.dedent ++ [Token.eof]).map Lexed.ok := fun n => rfl
      refine ⟨[], (List.replicate ws.length Token.dedent ++ [Token.eof]).map .ok,
        (List.replicate (ws.length + 1) Token.dedent ++ [Token.eof]).map .ok, by simp, ?_, ?_,
        .closed (hdedents _)⟩
      · simp [skipBlanks, skip, ht, hi]
      · simp [skipBlanks, skip, relocate, ht]
    · obtain ⟨found', pos', hmove', hbare⟩ := hmove.relocate pos (e :: w :: ws)
      have hstep' := hmove'.step_eq (s := s.relocate pos (e :: w :: ws)) hstart
      rw [run_of_step hstep, run_of_step hstep', List.map_append, List.map_append, hbare]
      -- On the same line the tokens found so far only come before those of the rest of it.
      have hnext : next.indents = w :: ws → next.fresh = false → next.hasTokens = true →
          (∀ x ∈ found.map Lexed.bare, x.token.kind ≠ .newline) →
          ∃ line first second, (∀ x ∈ line, x.token.kind ≠ .newline) ∧
            found.map Lexed.bare ++ next.run.map Lexed.bare = line ++ .ok .lineEnd :: first ∧
            found.map Lexed.bare ++ (next.relocate pos' (e :: w :: ws)).run.map Lexed.bare =
              line ++ .ok .lineEnd :: second ∧ Fork first second := by
        intro hi hf ht hfound
        obtain ⟨line, first, second, hline, hfirst, hsecond, hfork⟩ :=
          ih _ (measure_step hstep) (s := next) hi hf ht pos' rfl
        refine ⟨found.map Lexed.bare ++ line, first, second, fun x hx => ?_,
          by rw [hfirst, List.append_assoc], by rw [hsecond, List.append_assoc], hfork⟩
        exact (List.mem_append.1 hx).elim (hfound x) (hline x)
      cases hmove with
      | inside hr hn => exact hnext hi hf ht (by simp)
      | newline hr hn =>
        rw [ht]
        refine ⟨[], _, _, by simp, rfl, rfl, fork_between he ?_ ?_ rfl (.inl rfl) pos'⟩
        · exact hi
        · exact hn
      | lineComment hr => exact hnext hi hf ht (by simp)
      | openComment hr hbody => exact hnext hi hf ht (by simp [Lexed.bare, Token.bare, openComment])
      | blockComment hr hbody => exact hnext hi hf ht (by simp)
      | @token c cs hr hc hcomment =>
        have hkind := scan_kind c cs
        simp only [List.mem_cons, List.not_mem_nil, or_false, not_or] at hkind
        exact hnext hi hf rfl (by simpa [bare_place, Scan.bare, Scan.token] using hkind.1)

end Deeper

end Spellbook.Lexer
