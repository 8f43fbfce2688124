import Spellbook.Proofs.Program.Parser.Proceeds.Programs

/-! Blocks are consumed exactly. In a text without diagnostics every statement, at whatever depth,
takes as many INDENTs as DEDENTs and never a DEDENT of a block around it. So the loop over the
statements of a program comes by no INDENT and no DEDENT of its own. -/
namespace Spellbook

namespace Accounts

variable {α : Type} {opens closes : α → Bool} {n k : Nat} {xs ys : List α}

theorem split (h : Accounts opens closes n (xs ++ ys) k) :
    ∃ j, Accounts opens closes n xs j ∧ Accounts opens closes j ys k := by
  have hpart := h.part xs (List.prefix_append xs ys)
  have hfirst : Accounts opens closes n xs (n + xs.countP opens - xs.countP closes) :=
    ⟨by omega, fun p hp => h.part p (hp.trans (List.prefix_append xs ys))⟩
  exact ⟨_, hfirst, h.rest hfirst⟩

theorem congr_opens {opens' : α → Bool} (h : Accounts opens closes n xs k)
    (heq : ∀ x ∈ xs, opens x = opens' x) : Accounts opens' closes n xs k where
  total := by
    have hcount : xs.countP opens = xs.countP opens' :=
      List.countP_congr fun x hx => by rw [heq x hx]
    rw [← hcount]
    exact h.total
  part p hp := by
    have hcount : p.countP opens = p.countP opens' :=
      List.countP_congr fun x hx => by rw [heq x (hp.subset hx)]
    rw [← hcount]
    exact h.part p hp

end Accounts

theorem levels_tokensOf {source : String} (h : lexErrorsOf source = []) :
    Levels 0 (tokensOf source) 0 := by
  have haccounts : BlockAccounts 0 (tokensOf source) 0 :=
    Lexer.accounts_run (Lexer.stacked_start source.toList)
  have hcount := countP_isUneven (lex source) (Lexer.honest_run _)
  have hnone : (lex source).filterMap (·.error) = [] := h
  rw [hnone, List.countP_nil, List.countP_eq_zero] at hcount
  refine haccounts.congr_opens fun t ht => ?_
  have huneven : t.isUneven = false := by simpa using hcount t ht
  simp [Token.opens, Token.isIndent, huneven]

theorem program_of_no_diagnostics {source : String} (h : (parse source).diagnostics = []) :
    lexErrorsOf source = [] ∧ ∃ body s, s.found = [] ∧
      Parser.program (Parser.budget source.length) (Parser.State.start source) = .ok body s := by
  have hcollect : ∀ found errors, Parser.collect found errors = [] → found = [] ∧ errors = [] := by
    intro found errors hnil
    have hlength := congrArg List.length hnil
    simp only [Parser.collect, List.length_mergeSort, List.length_append, List.length_nil] at hlength
    obtain rfl : found = [] := List.length_eq_zero_iff.1 (by omega)
    simpa [Parser.unreported] using hlength
  obtain ⟨body, s, hreading⟩ := Parser.reading source
  rw [hreading.parse] at h
  obtain ⟨hfound, herrors⟩ := hcollect _ _ h
  exact ⟨herrors, body, s, by simpa using hfound, hreading.run _ (Nat.le_refl _)⟩

namespace Parser

open State

variable {source : String} {k fuel : Nat} {s s' : State}

theorem closed_of_suffix (h : lexErrorsOf source = []) (hs : s.tokens <:+ tokensOf source) :
    s.Closed := by
  obtain ⟨ts, hts⟩ := hs
  have hlevels := levels_tokensOf h
  rw [← hts] at hlevels
  obtain ⟨n, -, hn⟩ := hlevels.split
  exact ⟨n, hn⟩

/-- Every statement takes a token, keeps what has been reported, and closes the blocks that it opens
if it reports nothing. -/
theorem allowed_stmt (fuel : Nat) (hs : s.Within source (k + 1)) :
    Allowed (@Demand.full Unit source True) k s (Made (Stmt.All (Stmt.ReadFrom source)))
      (stmt fuel s) := by
  obtain ⟨r, hr, hallowed⟩ := proceeds_stmt (d := .full source True) (f := fun _ : Unit => fuel)
    trivial not_false (.inr ⟨trivial, fuel, fun _ => rfl⟩) k (Nat.lt_succ_self k) s hs
  obtain rfl : stmt fuel s = r := hr () (.inl trivial)
  exact hallowed

/-! Statements that are refused unless they are even -/

/-- The statement is refused unless it closes the blocks that it opens, and no others. -/
def evenly (p : Parse Stmt) : Parse Stmt := fun s =>
  match p s with
  | .ok a s' => if s.Even s' then .ok a s' else .error (.complaint ⟨s.cur.pos, .unexpectedIndent⟩) s'
  | .error e s' => .error e s'

def evenProgram (fuel : Nat) : Parse (List Stmt) :=
  statements (stmtBy evenly fuel) (· == .eof) isTopSeparator fuel

theorem proceeds_evenly {d : Demand Bool} (hexact : d.exact = (· = false)) (hd : d.even)
    {x : Bool → Parse Stmt} {Q : Stmt → State → Prop} (h : Proceeds d k x s Q) :
    Proceeds d k (fun strict => (if strict then evenly else id) (x strict)) s Q := by
  obtain ⟨r, hr, hallowed⟩ := h
  refine ⟨r, fun strict hbinds => ?_, hallowed⟩
  cases strict with
  | false => exact hr false hbinds
  | true =>
    obtain ⟨-, hclean⟩ := hbinds.resolve_left (by simp [hexact])
    cases r with
    | error e s' => exact hclean.elim
    | ok a s' =>
      have heven := hallowed.1.even hd hclean.2 hclean.1
      simp [evenly, hr true (.inr ⟨hd, hclean⟩), heven]

theorem stmtBy_evenly {a : Stmt} (hs : s.Within source (k + 1)) (hclosed : s.Closed)
    (h : stmt fuel s = .ok a s') (hfound : s'.found = s.found) :
    stmtBy evenly fuel s = .ok a s' := by
  obtain ⟨r, hr, hallowed⟩ := proceeds_stmtBy (d := ⟨source, (· = false), True, True, False, True⟩)
    (f := fun _ : Bool => fuel) trivial not_false (fun strict => if strict then evenly else id)
    (fun _ _ _ _ => proceeds_evenly rfl trivial) (.inr ⟨trivial, fuel, fun _ => rfl⟩) k
    (Nat.lt_succ_self k) s hs
  have hplain : stmtBy id fuel s = r := hr false (.inl rfl)
  rw [stmtBy_id, h] at hplain
  subst hplain
  exact hr true (.inr ⟨trivial, hclosed, hfound⟩)

/-! The loop over the statements of a program -/

def startsStatement (c : Kind) : Bool := !(c == .eof || isTopSeparator c || c == .indent)

def loop (p : Parse Stmt) : Nat → Parse (List Stmt) := statements p (· == .eof) isTopSeparator

section Loop

variable {p : Parse Stmt} {n : Nat}

theorem loop_eof (h : s.cur.kind = .eof) : loop p (n + 1) s = .ok [] s := by
  simp [loop, statements, cur, Bind.bind, EStateM.bind, h, Pure.pure, EStateM.pure]

theorem loop_separator {t : Token} (h : isTopSeparator s.cur.kind = true)
    (hadvance : advance s = .ok t s') : loop p (n + 1) s = loop p n s' := by
  have hne : s.cur.kind ≠ .eof := fun heof => by simp [heof, isTopSeparator] at h
  simp [loop, statements, cur, Bind.bind, EStateM.bind, h, hne, hadvance]

theorem loop_indent (h : s.cur.kind = .indent) : loop p (n + 1) s =
    loop p n ((s.reporting ⟨s.cur.pos, .unexpectedIndent⟩).behind (skipBlock 0 s.cur s.ahead)) := by
  simp [loop, statements, cur, Bind.bind, EStateM.bind, h, isTopSeparator]
  rfl

theorem loop_ok {a : Stmt} (h : startsStatement s.cur.kind = true) (hp : p s = .ok a s') :
    loop p (n + 1) s = (loop p n >>= fun body => pure (a :: body)) s' := by
  simp only [startsStatement, Bool.not_eq_true', Bool.or_eq_false_iff, beq_eq_false_iff_ne] at h
  simp [loop, statements, cur, Bind.bind, EStateM.bind, outcome, hp, h]

theorem loop_error {e : Diagnostic} (h : startsStatement s.cur.kind = true)
    (hp : p s = .error (.complaint e) s') : loop p (n + 1) s =
      loop p n ((s'.reporting e).behind (nextStatement s'.cur s'.ahead)) := by
  simp only [startsStatement, Bool.not_eq_true', Bool.or_eq_false_iff, beq_eq_false_iff_ne] at h
  simp [loop, statements, cur, Bind.bind, EStateM.bind, outcome, hp, h]
  rfl

theorem loop_outOfFuel (h : startsStatement s.cur.kind = true)
    (hp : p s = .error .outOfFuel s') : loop p (n + 1) s = .error .outOfFuel s' := by
  simp only [startsStatement, Bool.not_eq_true', Bool.or_eq_false_iff, beq_eq_false_iff_ne] at h
  simp [loop, statements, cur, Bind.bind, EStateM.bind, outcome, hp, h]

end Loop

theorem leads_loop {n : Nat} {body : List Stmt} (hs : s.Within source k)
    (h : loop (stmt fuel) n s = .ok body s') : s.Leads s' := by
  obtain ⟨r, hr, hallowed⟩ := Proceeds.statements
    (d := ⟨source, fun _ : Unit => True, False, True, False, True⟩)
    (f := fun _ => n) (· == .eof) isTopSeparator not_false
    (proceeds_stmt trivial not_false (.inr ⟨trivial, fuel, fun _ => rfl⟩)) rfl (.inr rfl) False.elim
    (.inr ⟨trivial, n, fun _ => rfl⟩) hs
  obtain rfl : .ok body s' = r := h.symm.trans (hr () (.inl trivial))
  exact hallowed.1.toLeads

/-- A turn of the loop that reports nothing: a token between statements is passed over, or a
statement is taken. -/
inductive Turn (fuel : Nat) (s : State) : List Stmt → State → Prop where
  | separator {s' : State} : isSeparator s.cur.kind = true → advance s = .ok s.cur s' →
    Turn fuel s [] s'
  | statement {a : Stmt} {s' : State} : startsStatement s.cur.kind = true →
    stmt fuel s = .ok a s' → Turn fuel s [a] s'

structure State.Levelled (s s' : State) : Prop extends s.Leads s' where
  even : s.Even s'
  found_eq : s'.found = s.found
  top : Levels 0 s'.tokens 0

theorem State.Levelled.of_step {d : Demand Unit} (hd : d.even) (h : s.Step d s')
    (hfound : s'.found = s.found) (htop : Levels 0 s.tokens 0) : s.Levelled s' := by
  have heven := h.even hd hfound ⟨0, htop⟩
  rw [h.toLeads.tokens_eq] at htop
  exact ⟨h.toLeads, heven, hfound, htop.rest heven⟩

theorem isTopSeparator_cases {c : Kind} (h : isTopSeparator c = true) :
    isSeparator c = true ∨ c = .dedent := by
  unfold isTopSeparator at h
  split at h
  · exact .inl rfl
  · exact .inl rfl
  · exact .inr rfl
  · cases h

theorem isTopSeparator_of_isSeparator {c : Kind} (h : isSeparator c = true) :
    isTopSeparator c = true := by
  unfold isSeparator at h
  split at h
  · rfl
  · rfl
  · cases h

theorem ne_dedent_of_top (htop : Levels 0 s.tokens 0) : s.cur.kind ≠ .dedent :=
  fun hdedent => not_levels_dedent hdedent htop

/-- Where no block is open and nothing is reported from there on, the loop is at the end of the text
or takes a turn that leaves no block open. -/
theorem loop_cases {n : Nat} {body : List Stmt} {last : State} (hs : s.Within source (k + 1))
    (htop : Levels 0 s.tokens 0) (h : loop (stmt fuel) n s = .ok body last)
    (hfound : last.found = s.found) :
    (s.cur.kind = .eof ∧ body = [] ∧ last = s) ∨
      ∃ m taken body' s', n = m + 1 ∧ body = taken ++ body' ∧ Turn fuel s taken s' ∧
        loop (stmt fuel) m s' = .ok body' last ∧ s'.Within source k ∧ s.Levelled s' := by
  -- Whatever is reported on the way would be there in the end.
  have hsilent : ∀ {m s₁ s₂ e}, s.Leads s₁ → (s₁.reporting e).Leads s₂ →
      loop (stmt fuel) m s₂ ≠ .ok body last := by
    intro m s₁ s₂ e hs₁ hs₂ hlast
    have hwithin := hs₂.within ((hs₁.within hs).reporting e)
    exact (hs₁.reported (hs₂.trans (leads_loop hwithin hlast))).2 hfound
  cases n with
  | zero => cases h
  | succ n =>
    by_cases heof : s.cur.kind = .eof
    · rw [loop_eof heof] at h
      cases h
      exact .inl ⟨heof, rfl, rfl⟩
    refine .inr ?_
    by_cases hsep : isTopSeparator s.cur.kind = true
    · have hflat := (isTopSeparator_cases hsep).resolve_right (ne_dedent_of_top htop)
      obtain ⟨t, ts, hahead, hwithin⟩ := hs.ahead heof
      have hadvance : advance s = .ok s.cur ⟨t, ts, s.found⟩ := by simp [advance, hahead]
      have hstep : s.Step (@Demand.full Unit source True) ⟨t, ts, s.found⟩ :=
        .one hahead fun _ => isFlat_of_isSeparator hflat
      rw [loop_separator hsep hadvance] at h
      exact ⟨n, [], body, _, rfl, rfl, .separator hflat hadvance, h, hwithin,
        .of_step trivial hstep rfl htop⟩
    by_cases hindent : s.cur.kind = .indent
    · rw [loop_indent hindent] at h
      exact absurd h (hsilent (.refl s) (leads_behind (skipBlock_suffix _ _ _)))
    have hstart : startsStatement s.cur.kind = true := by
      simp [startsStatement, heof, hsep, hindent]
    have hallowed := allowed_stmt fuel hs
    cases hstmt : stmt fuel s with
    | error e s' =>
      rw [hstmt] at hallowed
      cases e with
      | complaint e =>
        rw [loop_error hstart hstmt] at h
        exact absurd h (hsilent hallowed.2.1.toLeads (leads_behind (nextStatement_suffix _ _)))
      | outOfFuel => cases (loop_outOfFuel hstart hstmt).symm.trans h
    | ok a s' =>
      rw [hstmt] at hallowed
      obtain ⟨hstep, hwithin, -⟩ := hallowed
      rw [loop_ok hstart hstmt] at h
      cases hrest : loop (stmt fuel) n s' with
      | error e s'' => simp [Bind.bind, EStateM.bind, hrest] at h
      | ok body' s'' =>
        simp only [Bind.bind, EStateM.bind, hrest] at h
        cases h
        have hleads := leads_loop hwithin hrest
        exact ⟨n, [a], body', s', rfl, rfl, .statement hstart hstmt, hrest, hwithin,
          .of_step trivial hstep (hstep.toLeads.found_eq hleads hfound).1 htop⟩

/-- A state that the loop over the statements of a text comes to. -/
inductive AtTop (source : String) : State → Prop where
  | start : AtTop source (State.start source)
  | separator {s s' : State} {t : Token} : AtTop source s → isTopSeparator s.cur.kind = true →
    advance s = .ok t s' → AtTop source s'
  | statement {s s' : State} {a : Stmt} : AtTop source s → startsStatement s.cur.kind = true →
    stmt (budget source.length) s = .ok a s' → AtTop source s'
  | failed {s s' s'' : State} {e : Diagnostic} : AtTop source s →
    startsStatement s.cur.kind = true → stmt (budget source.length) s = .error (.complaint e) s' →
    synchronize (s'.reporting e) = .ok () s'' → AtTop source s''
  | block {s s' : State} : AtTop source s → s.cur.kind = .indent →
    skipHere (s.reporting ⟨s.cur.pos, .unexpectedIndent⟩) = .ok () s' → AtTop source s'

theorem loop_evenly {n : Nat} {body : List Stmt} {last : State} (hs : s.Within source (k + 1))
    (htop : Levels 0 s.tokens 0) (h : loop (stmt fuel) n s = .ok body last)
    (hfound : last.found = s.found) : loop (stmtBy evenly fuel) n s = .ok body last := by
  induction n generalizing s body with
  | zero => cases h
  | succ n ih =>
    obtain ⟨heof, rfl, rfl⟩ | ⟨m, taken, body', s', hm, rfl, hturn, hrest, hwithin, hlevel⟩ :=
      loop_cases hs htop h hfound
    · exact loop_eof heof
    · obtain rfl : n = m := Nat.succ.inj hm
      have hnext := ih (hlevel.toLeads.within hs) hlevel.top hrest
        (hfound.trans hlevel.found_eq.symm)
      cases hturn with
      | separator hsep hadvance =>
        exact (loop_separator (isTopSeparator_of_isSeparator hsep) hadvance).trans hnext
      | statement hstart hstmt =>
        have heven := stmtBy_evenly hs ⟨0, htop⟩ hstmt hlevel.found_eq
        rw [loop_ok hstart heven]
        simp only [Bind.bind, EStateM.bind, hnext]
        rfl

theorem atTop_last {n : Nat} {body : List Stmt} {last : State} (hat : AtTop source s)
    (hs : s.Within source (k + 1)) (htop : Levels 0 s.tokens 0)
    (h : loop (stmt (budget source.length)) n s = .ok body last)
    (hfound : last.found = s.found) : AtTop source last ∧ last.cur.kind = .eof := by
  induction n generalizing s body with
  | zero => cases h
  | succ n ih =>
    obtain ⟨heof, -, rfl⟩ | ⟨m, taken, body', s', hm, -, hturn, hrest, -, hlevel⟩ :=
      loop_cases hs htop h hfound
    · exact ⟨hat, heof⟩
    · obtain rfl : n = m := Nat.succ.inj hm
      have hat' : AtTop source s' := by
        cases hturn with
        | separator hsep hadvance =>
          exact hat.separator (isTopSeparator_of_isSeparator hsep) hadvance
        | statement hstart hstmt => exact hat.statement hstart hstmt
      exact ih hat' (hlevel.toLeads.within hs) hlevel.top hrest (hfound.trans hlevel.found_eq.symm)

theorem State.Levelled.trans {s'' : State} (h : s.Levelled s') (h' : s'.Levelled s'') :
    s.Levelled s'' := by
  exact ⟨h.toLeads.trans h'.toLeads, h.even.trans h'.even h.toLeads h'.toLeads,
    h'.found_eq.trans h.found_eq, h'.top⟩

/-- What is known of a state that the loop comes to on its way to `last`, with nothing reported. -/
structure OnWay (source : String) (last s : State) : Prop where
  levelled : (State.start source).Levelled s
  rest : ∃ n body, loop (stmt (budget source.length)) n s = .ok body last
  silent : last.found = s.found

theorem OnWay.cases {last : State} (h : OnWay source last s) :
    (s.cur.kind = .eof ∧ last = s) ∨
      ∃ taken s', Turn (budget source.length) s taken s' ∧ OnWay source last s' := by
  obtain ⟨n, body, hloop⟩ := h.rest
  have hwithin := h.levelled.toLeads.within (within_start source)
  obtain ⟨heof, -, hlast⟩ | ⟨m, taken, body', s', -, -, hturn, hrest, -, hlevel⟩ :=
    loop_cases hwithin h.levelled.top hloop h.silent
  · exact .inl ⟨heof, hlast⟩
  · exact .inr ⟨taken, s', hturn, h.levelled.trans hlevel, ⟨m, body', hrest⟩,
      h.silent.trans hlevel.found_eq.symm⟩

theorem Turn.ne_indent {taken : List Stmt} (h : Turn fuel s taken s') : s.cur.kind ≠ .indent := by
  intro hindent
  cases h with
  | separator hsep => simp [hindent, isSeparator] at hsep
  | statement hstart => simp [hindent, startsStatement] at hstart

theorem OnWay.ne_indent {last : State} (h : OnWay source last s) : s.cur.kind ≠ .indent := by
  obtain ⟨heof, -⟩ | ⟨taken, s', hturn, -⟩ := h.cases
  · simp [heof]
  · exact hturn.ne_indent

theorem AtTop.onWay {last : State} (hstart : OnWay source last (State.start source))
    (h : AtTop source s) : OnWay source last s := by
  induction h with
  | start => exact hstart
  | separator hat hsep hadvance ih =>
    obtain ⟨heof, -⟩ | ⟨taken, s', hturn, hway⟩ := ih.cases
    · simp [heof, isTopSeparator] at hsep
    · cases hturn with
      | separator _ hadvance' =>
        cases hadvance.symm.trans hadvance'
        exact hway
      | statement hstart => simp [startsStatement, hsep] at hstart
  | statement hat hstart hstmt ih =>
    obtain ⟨heof, -⟩ | ⟨taken, s', hturn, hway⟩ := ih.cases
    · simp [heof, startsStatement] at hstart
    · cases hturn with
      | separator hsep => simp [startsStatement, isTopSeparator_of_isSeparator hsep] at hstart
      | statement _ hstmt' =>
        cases hstmt.symm.trans hstmt'
        exact hway
  | failed hat hstart hstmt _ ih =>
    obtain ⟨heof, -⟩ | ⟨taken, s', hturn, -⟩ := ih.cases
    · simp [heof, startsStatement] at hstart
    · cases hturn with
      | separator hsep => simp [startsStatement, isTopSeparator_of_isSeparator hsep] at hstart
      | statement _ hstmt' => cases hstmt.symm.trans hstmt'
  | block hat hindent _ ih => exact absurd hindent ih.ne_indent

end Parser

open Spellbook.Parser in
/-- Blocks are consumed exactly in a text without diagnostics. A statement that reports nothing, with
any fuel and wherever it starts in the text, closes the blocks that it opens and no others. This is
so of all statements of the program: the program is the same if uneven ones are refused at whatever
depth, as a refusal would be reported. And whenever the loop over the statements of the program comes
by, no block is open and neither an INDENT nor a DEDENT is next, up to the end of the text. -/
theorem blocks_consumed {source : String} (h : (parse source).diagnostics = []) :
    (∀ fuel s a s', s.tokens <:+ tokensOf source → stmt fuel s = .ok a s' → s'.found = s.found →
      s.tokens = s.taken s' ++ s'.tokens ∧ Levels 0 (s.taken s') 0) ∧
    evenProgram (budget source.length) (State.start source) =
      program (budget source.length) (State.start source) ∧
    (∀ s, AtTop source s → Levels 0 ((State.start source).taken s) 0 ∧
      s.cur.kind ≠ .indent ∧ s.cur.kind ≠ .dedent) ∧
    ∃ s, AtTop source s ∧ s.cur.kind = .eof := by
  obtain ⟨herrors, body, last, hnone, hprogram⟩ := program_of_no_diagnostics h
  have hwithin := within_start source
  have htop : Levels 0 (State.start source).tokens 0 := by
    rw [tokens_start]
    exact levels_tokensOf herrors
  have hsilent : last.found = (State.start source).found := by rw [hnone, found_start]
  refine ⟨fun fuel s a s' hs hstmt hfound => ?_, ?_, fun s hs => ?_, last, ?_⟩
  · have hallowed := allowed_stmt (k := weigh s.tokens) fuel ⟨hs, Nat.le_succ _⟩
    rw [hstmt] at hallowed
    exact ⟨hallowed.1.toLeads.tokens_eq,
      hallowed.1.even trivial hfound (closed_of_suffix herrors hs)⟩
  · exact (loop_evenly hwithin htop hprogram hsilent).trans hprogram.symm
  · have hway : OnWay source last s :=
      hs.onWay ⟨.of_step (d := .full source True) trivial (.refl _) rfl htop, ⟨_, _, hprogram⟩, hsilent⟩
    exact ⟨hway.levelled.even, hway.ne_indent, ne_dedent_of_top hway.levelled.top⟩
  · exact atTop_last .start hwithin htop hprogram hsilent

open Spellbook.Parser in
/-- Two blocks that end at once, and a statement behind them. -/
theorem nested_blocks_consumed :
    let source := "while a:\n    if b: c\n    else:\n        d\ne"
    (parse source).diagnostics = [] ∧ (tokensOf source).countP (·.isIndent) = 2 ∧
      evenProgram (budget source.length) (State.start source) =
        program (budget source.length) (State.start source) ∧
      ∃ s, AtTop source s ∧ s.cur.kind = .eof ∧ Levels 0 ((State.start source).taken s) 0 := by
  intro source
  have hclean : (parse source).diagnostics = [] := by decide +kernel
  obtain ⟨-, heven, htop, last, hlast, heof⟩ := blocks_consumed hclean
  exact ⟨hclean, by decide +kernel, heven, last, hlast, heof, (htop last hlast).1⟩

end Spellbook
