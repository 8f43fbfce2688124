import Spellbook.Proofs.Token.Feed
import Spellbook.Proofs.Token.Layout

/-! What the lexer does from one token to the next. Between two tokens there are quiet steps only, and
two lexers that differ in their place and their open blocks alone take the same steps within a
line. -/
namespace Spellbook.Lexer

variable {s next : Lexer} {found : List Lexed}

/-! Between the tokens -/

/-- The first lexer comes to the second without finding a token. -/
structure Quiet (source : String) (s m : Lexer) : Prop where
  run : s.run = m.run
  nesting : m.nesting = s.nesting
  hasTokens : m.hasTokens = s.hasTokens
  indents : m.indents = s.indents
  within : s.Within source.toList → m.Within source.toList

theorem Quiet.refl (source : String) (s : Lexer) : Quiet source s s :=
  ⟨rfl, rfl, rfl, rfl, fun h => h⟩

theorem Quiet.trans {source : String} {m : Lexer} (h : Quiet source s next)
    (h' : Quiet source next m) : Quiet source s m :=
  ⟨h.run.trans h'.run, h'.nesting.trans h.nesting, h'.hasTokens.trans h.hasTokens,
    h'.indents.trans h.indents, fun hs => h'.within (h.within hs)⟩

theorem applyIndent_quiet {width : Nat} (h : (s.applyIndent width).1 = []) :
    (s.applyIndent width).2 = s := by
  unfold applyIndent at h ⊢
  dsimp only at h ⊢
  split at h
  · cases h
  · rename_i hwidth
    split at h
    · rename_i hkept
      rw [if_neg hwidth, if_pos hkept]
      have hsuffix := List.dropWhile_suffix (l := s.indents) (width < ·)
      have hle : s.indents.length ≤ (s.indents.dropWhile (width < ·)).length := by
        simpa [Nat.sub_eq_zero_iff_le] using h
      rw [hsuffix.eq_of_length (Nat.le_antisymm hsuffix.length_le hle)]
    · simp at h

theorem quiet_step {source : String} (h : s.step = ([], some next)) : Quiet source s next := by
  have hwithin : s.Within source.toList → next.Within source.toList :=
    fun hs => (step_within hs).2 next (by simp [h])
  have hrun : s.run = next.run := run_of_step h
  suffices hkept : next.nesting = s.nesting ∧ next.hasTokens = s.hasTokens ∧
      next.indents = s.indents from ⟨hrun, hkept.1, hkept.2.1, hkept.2.2, hwithin⟩
  cases hstart : s.atStart with
  | true =>
    have hlook := look_layout s
    rw [step_look hstart] at h
    simp only [Prod.mk.injEq, Option.some.injEq] at h
    rw [h.1, h.2] at hlook
    generalize hfound : ([] : List Lexed) = found at hlook
    cases hlook with
    | blank => exact ⟨rfl, rfl, rfl⟩
    | openComment => cases hfound
    | comment => exact ⟨rfl, rfl, rfl⟩
    | behind _ _ _ hbehind =>
      rw [applyIndent_quiet hfound.symm, hbehind]
      exact ⟨rfl, rfl, rfl⟩
    | row _ _ hinside =>
      rw [applyIndent_quiet hfound.symm, hinside]
      exact ⟨rfl, rfl, rfl⟩
  | false =>
    obtain ⟨-, hstep⟩ | ⟨found, next', hstep, hmove⟩ := step_moves hstart
    · simp [hstep] at h
    · obtain ⟨hfound, rfl⟩ : found = [] ∧ next' = next := by simpa [hstep] using h
      cases hmove with
      | newline _ hn =>
        refine ⟨rfl, ?_, rfl⟩
        cases ht : s.hasTokens with
        | true => simp [ht] at hfound
        | false => rfl
      | openComment => cases hfound
      | token => cases hfound
      | _ => exact ⟨rfl, rfl, rfl⟩

theorem exists_loud (source : String) (s : Lexer) : ∃ m, Quiet source s m ∧ m.step.1 ≠ [] := by
  induction hm : s.measure using Nat.strongRecOn generalizing s with
  | ind k ih =>
    subst hm
    by_cases hloud : s.step.1 = []
    · cases hstep : s.step with
      | mk found next =>
        obtain rfl : found = [] := by simpa [hstep] using hloud
        cases next with
        | none =>
          -- The text does not end without a token.
          have hends := endsWithEof_run s
          rw [run_of_end hstep] at hends
          exact absurd hends EndsWithEof.not_nil
        | some next =>
          obtain ⟨m, hquiet, hm⟩ := ih _ (measure_step hstep) next rfl
          exact ⟨m, (quiet_step hstep).trans hquiet, hm⟩
    · exact ⟨s, .refl source s, hloud⟩

section Found

variable (source : String) {x : Lexed} {xs : List Lexed}

theorem exists_first (s : Lexer) : ∃ m y ys, Quiet source s m ∧ m.step.1 = y :: ys ∧
    s.run = y :: (ys ++ m.step.2.elim [] run) := by
  obtain ⟨m, hquiet, hm⟩ := exists_loud source s
  obtain ⟨y, ys, hfound⟩ := List.exists_cons_of_ne_nil hm
  refine ⟨m, y, ys, hquiet, hfound, ?_⟩
  rw [hquiet.run]
  cases hstep : m.step with
  | mk found next =>
    obtain rfl : found = y :: ys := by simpa [hstep] using hfound
    cases next with
    | none => simp [run_of_end hstep]
    | some next => simp [run_of_step hstep]

/-- A move that finds something finds one token only: the end of a line, a comment that never ends or
what is scanned behind the blanks. -/
theorem Move.loud {ys : List Lexed} {y : Lexed} (h : Move s (y :: ys) next) : ys = [] ∧
    ((∃ cs, y = lineEnd s.skipBlanks.pos ∧
        next = { s.skipBlanks.skip ['\n'] cs with fresh := true, hasTokens := false }) ∨
      y.token.kind = .illegal ∨
      ∃ c cs, s.skipBlanks.rest = c :: cs ∧ c ≠ '\n' ∧ opensComment (c :: cs) = false ∧
        y = s.skipBlanks.place (scan c cs)) := by
  generalize hfound : y :: ys = found at h
  cases h with
  | inside | lineComment | blockComment => cases hfound
  | newline =>
    cases ht : s.hasTokens with
    | true =>
      simp only [ht, if_true, List.cons.injEq] at hfound
      exact ⟨hfound.2, .inl ⟨_, hfound.1, rfl⟩⟩
    | false => simp [ht] at hfound
  | openComment =>
    obtain ⟨rfl, rfl⟩ := List.cons.inj hfound
    exact ⟨rfl, .inr (.inl rfl)⟩
  | token hr hc hcomment =>
    obtain ⟨rfl, rfl⟩ := List.cons.inj hfound
    exact ⟨rfl, .inr (.inr ⟨_, _, hr, hc, hcomment, rfl⟩)⟩

theorem exists_token (hn : s.nesting = 0) (h : s.run = x :: xs)
    (hx : x.token.kind.isSolid = true) :
    ∃ m c cs, Quiet source s m ∧ m.fresh = false ∧ m.skipBlanks.rest = c :: cs ∧ c ≠ '\n' ∧
      opensComment (c :: cs) = false ∧ x.token.pos = m.skipBlanks.pos := by
  obtain ⟨m, y, ys, hquiet, hfound, hrun⟩ := exists_first source s
  obtain ⟨rfl, -⟩ := List.cons.inj (hrun.symm.trans h)
  have hnest : m.nesting = 0 := hquiet.nesting.trans hn
  cases hstart : m.atStart with
  | true =>
    rw [step_look hstart] at hfound
    have hsolid := isSolid_layout m y (by simp [show m.layout.1 = y :: ys from hfound])
    simp [hx] at hsolid
  | false =>
    have hfresh : m.fresh = false := by simpa [atStart, hnest] using hstart
    obtain ⟨-, hstep⟩ | ⟨found, next, hstep, hmove⟩ := step_moves hstart
    · rw [hstep] at hfound
      have hsolid := isSolid_finish m.skipBlanks y
        (by simp [show m.skipBlanks.finish = y :: ys from hfound])
      simp [hx] at hsolid
    · obtain rfl : found = y :: ys := by simpa [hstep] using hfound
      obtain ⟨-, ⟨cs, rfl, -⟩ | hillegal | ⟨c, cs, hr, hc, hcomment, rfl⟩⟩ := hmove.loud
      · cases hx
      · simp [hillegal, Kind.isSolid] at hx
      · exact ⟨m, c, cs, hquiet, hfresh, hr, hc, hcomment, rfl⟩

theorem applyIndent_cases (s : Lexer) (width : Nat) :
    (s.indents.headD 0 < width ∧ s.applyIndent width =
      ([mark .indent ⟨s.pos.line, width + 1⟩], { s with indents := width :: s.indents })) ∨
    ∀ l ∈ (s.applyIndent width).1, l.token.kind = .dedent ∨ l.token.kind = .illegal := by
  by_cases hwidth : s.indents.headD 0 < width
  · exact .inl ⟨hwidth, if_pos hwidth⟩
  · refine .inr fun l hl => ?_
    simp only [applyIndent, if_neg hwidth] at hl
    split at hl
    · exact .inl (by rw [List.eq_of_mem_replicate hl]; rfl)
    · obtain hl | hl := List.mem_append.1 hl
      · exact .inl (by rw [List.eq_of_mem_replicate hl]; rfl)
      · exact .inr (by rw [List.mem_singleton.1 hl]; rfl)

/-- What is found by a look at a line: that it is deeper, or else no INDENT and no line end. -/
theorem Look.opens (h : Look s found next) :
    (∃ width, s.indents.headD 0 < width ∧ next.indents = width :: s.indents ∧
      next.hasTokens = s.hasTokens ∧ next.nesting = s.nesting ∧ ∃ l, found = [l] ∧
        l.token.kind = .indent) ∨
    ∀ l ∈ found, l.token.kind = .dedent ∨ l.token.kind = .illegal := by
  cases h with
  | blank => exact .inr (by simp)
  | openComment => exact .inr (by simp [Lexer.openComment])
  | comment => exact .inr (by simp)
  | @behind _ _ _ behind _ _ _ hbehind =>
    obtain ⟨hwidth, happly⟩ | hmarks := applyIndent_cases behind _
    · rw [happly]
      subst hbehind
      exact .inl ⟨_, hwidth, rfl, rfl, rfl, _, rfl, rfl⟩
    · exact .inr hmarks
  | @row inside _ _ hinside =>
    obtain ⟨hwidth, happly⟩ | hmarks := applyIndent_cases inside _
    · rw [happly]
      subst hinside
      exact .inl ⟨_, hwidth, rfl, rfl, rfl, _, rfl, rfl⟩
    · exact .inr hmarks

theorem ne_indent_finish (s : Lexer) : ∀ l ∈ s.finish, l.token.kind ≠ .indent := by
  intro l hl hkind
  obtain rfl | rfl | rfl := mem_finish hl <;> cases hkind

theorem exists_newline (hn : s.nesting = 0)
    (h : s.run.map Lexed.bare = .ok .lineEnd :: .ok .indent :: xs) :
    ∃ (x : Lexed) (next : Lexer), s.run = x :: next.run ∧ next.nesting = 0 ∧
      next.hasTokens = false ∧ next.indents = s.indents ∧
      (s.Within source.toList → next.Within source.toList) := by
  obtain ⟨m, y, ys, hquiet, hfound, hrun⟩ := exists_first source s
  rw [hrun, List.map_cons] at h
  obtain ⟨hy, hys⟩ := List.cons.inj h
  have hkind : y.token.kind = .newline := congrArg (fun l : Lexed => l.token.kind) hy
  have hnest : m.nesting = 0 := hquiet.nesting.trans hn
  cases hstart : m.atStart with
  | true =>
    rw [step_look hstart] at hfound
    have hfound : m.layout.1 = y :: ys := hfound
    obtain ⟨-, -, -, -, -, l, hl, hindent⟩ | hmarks := (look_layout m).opens
    · obtain ⟨rfl, -⟩ := List.cons.inj (hfound.symm.trans hl)
      cases hkind.symm.trans hindent
    · have hmark := hmarks y (by simp [hfound])
      simp [hkind] at hmark
  | false =>
    obtain ⟨-, hstep⟩ | ⟨found, next, hstep, hmove⟩ := step_moves hstart
    · rw [hstep] at hfound hys
      have hmem : Lexed.ok .indent ∈ ys.map Lexed.bare := by
        have hnil : (ys ++ Option.elim none [] run).map Lexed.bare = .ok .indent :: xs := hys
        rw [Option.elim_none, List.append_nil] at hnil
        rw [hnil]
        exact List.mem_cons_self
      obtain ⟨l, hl, hbare⟩ := List.mem_map.1 hmem
      have hmark : l.token.kind = .indent := congrArg (fun l : Lexed => l.token.kind) hbare
      refine absurd hmark (ne_indent_finish m.skipBlanks l ?_)
      rw [show m.skipBlanks.finish = y :: ys from hfound]
      exact List.mem_cons_of_mem y hl
    · have hwithin : m.Within source.toList → next.Within source.toList :=
        fun hs => (step_within hs).2 next (by simp [hstep])
      obtain rfl : found = y :: ys := by simpa [hstep] using hfound
      rw [hstep] at hrun
      obtain ⟨rfl, ⟨cs, -, rfl⟩ | hillegal | ⟨c, cs, -, -, -, rfl⟩⟩ := hmove.loud
      · exact ⟨y, _, hrun, hnest, rfl, hquiet.indents, fun hs => hwithin (hquiet.within hs)⟩
      · cases hkind.symm.trans hillegal
      · have hscan := scan_kind c cs
        simp only [List.mem_cons, List.not_mem_nil, or_false, not_or] at hscan
        exact absurd hkind hscan.1

theorem exists_indent {w : Nat} {ws : List Nat} (hi : s.indents = w :: ws)
    (h : s.run.map Lexed.bare = .ok .indent :: xs) :
    ∃ (x : Lexed) (next : Lexer) (v : Nat), s.run = x :: next.run ∧ w < v ∧
      next.indents = v :: w :: ws ∧ next.nesting = 0 ∧ next.hasTokens = s.hasTokens ∧
      (s.Within source.toList → next.Within source.toList) := by
  obtain ⟨m, y, ys, hquiet, hfound, hrun⟩ := exists_first source s
  rw [hrun, List.map_cons] at h
  obtain ⟨hy, -⟩ := List.cons.inj h
  have hkind : y.token.kind = .indent := congrArg (fun l : Lexed => l.token.kind) hy
  cases hstart : m.atStart with
  | true =>
    have hnest : m.nesting = 0 := by
      simp only [atStart, Bool.and_eq_true, beq_iff_eq] at hstart
      exact hstart.2
    have hwithin : m.Within source.toList → m.layout.2.Within source.toList :=
      fun hs => (step_within hs).2 _ (by simp [step_look hstart])
    rw [step_look hstart] at hfound hrun
    have hfound : m.layout.1 = y :: ys := hfound
    obtain ⟨v, hv, hi', ht', hn', l, hl, -⟩ | hmarks := (look_layout m).opens
    · obtain ⟨-, rfl⟩ := List.cons.inj (hfound.symm.trans hl)
      rw [hquiet.indents, hi] at hv hi'
      exact ⟨y, m.layout.2, v, hrun, hv, hi', hn'.trans hnest, ht'.trans hquiet.hasTokens,
        fun hs => hwithin (hquiet.within hs)⟩
    · have hmark := hmarks y (by simp [hfound])
      simp [hkind] at hmark
  | false =>
    obtain ⟨-, hstep⟩ | ⟨found, next, hstep, hmove⟩ := step_moves hstart
    · rw [hstep] at hfound
      refine absurd hkind (ne_indent_finish m.skipBlanks y ?_)
      simp [show m.skipBlanks.finish = y :: ys from hfound]
    · obtain rfl : found = y :: ys := by simpa [hstep] using hfound
      obtain ⟨-, ⟨cs, rfl, -⟩ | hillegal | ⟨c, cs, -, -, -, rfl⟩⟩ := hmove.loud
      · cases hkind
      · cases hkind.symm.trans hillegal
      · exact absurd hkind (honest_scan c cs).indent

end Found

end Spellbook.Lexer
