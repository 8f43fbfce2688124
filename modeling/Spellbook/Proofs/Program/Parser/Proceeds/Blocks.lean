import Spellbook.Proofs.Program.Parser.Proceeds.Expressions
import Spellbook.Proofs.Program.Parser.Recovery

/-! Runs of statements and blocks proceed if their statements do. A statement that fails is reported
and skipped, and recovery takes a token wherever the loop would otherwise come by again. A block
takes its INDENT and its DEDENT: if EOF stands in the place of the DEDENT, the blocks around it are
not closed either. -/
namespace Spellbook.Parser

open State

namespace State

variable {text : String} {s s' : State} {k : Nat}

def behind (s : State) (rest : Token × List Token) : State := ⟨rest.1, rest.2, s.found⟩

theorem leads_behind {rest : Token × List Token} (h : rest.1 :: rest.2 <:+ s.tokens) :
    s.Leads (s.behind rest) :=
  ⟨h, List.suffix_rfl⟩

theorem way_behind {ι : Type} {d : Demand ι} (hn : ¬ d.flat) {rest : Token × List Token}
    (h : rest.1 :: rest.2 <:+ s.tokens) : s.Way d (s.behind rest) :=
  ⟨leads_behind h, fun hd => absurd hd hn, fun _ => .inl⟩

theorem Within.later (hs : s.Within text (k + 1)) (hcur : s.cur.kind ≠ .eof)
    (h : s'.tokens <:+ s.ahead) : s'.Within text k := by
  obtain ⟨t, ts, hahead, hwithin⟩ := hs.ahead hcur
  rw [hahead] at h
  exact Leads.within (s := ⟨t, ts, s'.found⟩) ⟨h, List.suffix_rfl⟩ ⟨hwithin.suffix, hwithin.weight⟩

theorem within_skipBlock (hs : s.Within text (k + 1)) (hcur : s.cur.kind = .indent) :
    (s.behind (skipBlock 0 s.cur s.ahead)).Within text k := by
  have hne : s.cur.kind ≠ .eof := by simp [hcur]
  obtain ⟨t, ts, hahead, -⟩ := hs.ahead hne
  refine hs.later hne ?_
  rw [hahead]
  exact skipBlock_progress hcur

theorem within_nextStatement (hs : s.Within text (k + 1)) (heof : s.cur.kind ≠ .eof)
    (hdedent : s.cur.kind ≠ .dedent) (h : s.Leads s') :
    (s'.behind (nextStatement s'.cur s'.ahead)).Within text k := by
  obtain ⟨t, ts, hahead, -⟩ := hs.ahead heof
  apply hs.later heof
  -- Either the failed statement has taken a token, or recovery starts where it has started.
  have hsuffix := h.tokens
  rw [State.tokens, State.tokens, List.suffix_cons_iff] at hsuffix
  obtain heq | hsuffix := hsuffix
  · obtain ⟨hcur, hahead'⟩ := List.cons.inj heq
    rw [hcur, hahead', hahead]
    exact nextStatement_progress heof hdedent
  · exact (nextStatement_suffix s'.cur s'.ahead).trans hsuffix

theorem Closed.tail {t : Token} {ts : List Token} (hs : s.Closed) (hahead : s.ahead = t :: ts) :
    (⟨t, ts, s.found⟩ : State).Closed := by
  obtain ⟨n, hn⟩ := hs
  rw [State.tokens, hahead] at hn
  exact ⟨_, (Accounts.cons_iff.1 hn).2⟩

/-- Where a block ends before a DEDENT or EOF the DEDENT is taken, if there is one. There is if the
block is closed somewhere and all those inside it are closed here. -/
theorem Leads.enclosed {t : Token} {ts : List Token} (hcur : s.cur.kind = .indent)
    (hahead : s.ahead = t :: ts) (hleads : (⟨t, ts, s.found⟩ : State).Leads s')
    (hs' : s'.Within text k) (hend : endsBlock s'.cur.kind = true) :
    ∃ b s'', Parser.accept .dedent s' = .ok b s'' ∧ s''.found = s'.found ∧ s''.Within text k ∧
      s.Leads s'' ∧ (s.Closed → (⟨t, ts, s.found⟩ : State).Even s' →
        s'.cur.kind = .dedent ∧ s'.tokens = s'.cur :: s''.tokens ∧ s.Even s'') := by
  have htokens := tokens_cons hahead
  have hindent : ∀ n, Levels n [s.cur] (n + 1) := fun n => (levels_indent hcur).2 (.nil (n + 1))
  have hfirst : s.Leads ⟨t, ts, s.found⟩ := ⟨⟨[s.cur], htokens.symm⟩, List.suffix_rfl⟩
  have htaken : s.taken ⟨t, ts, s.found⟩ = [s.cur] := taken_eq htokens
  by_cases hk : s'.cur.kind = .dedent
  · obtain ⟨k, rfl⟩ := Nat.exists_eq_add_one.2 hs'.pos
    obtain ⟨u, us, hahead', hwithin⟩ := hs'.ahead (by simp [hk])
    have htokens' := tokens_cons hahead'
    have hlast : s'.Leads ⟨u, us, s'.found⟩ := ⟨⟨[s'.cur], htokens'.symm⟩, List.suffix_rfl⟩
    refine ⟨true, ⟨u, us, s'.found⟩, ?_, rfl, hwithin.mono (Nat.le_succ k),
      (hfirst.trans hleads).trans hlast, fun _ hinside => ⟨hk, htokens', ?_⟩⟩
    · simp [Parser.accept, Parser.check, Parser.advance, Bind.bind, EStateM.bind, hk, hahead',
        Pure.pure, EStateM.pure]
    · have hdedent : Levels 1 [s'.cur] 0 := (levels_dedent hk).2 (.nil 0)
      rw [Even, (hfirst.trans hleads).taken_trans hlast, hfirst.taken_trans hleads, htaken,
        taken_eq htokens']
      exact ((hindent 0).append (hinside.lift 1)).append hdedent
  · have hkind : s'.cur.kind = .eof := by
      cases hc : s'.cur.kind <;> simp_all [endsBlock]
    refine ⟨false, s', ?_, rfl, hs', hfirst.trans hleads, fun hclosed hinside => ?_⟩
    · simp [Parser.accept, Parser.check, Bind.bind, EStateM.bind, hkind, Pure.pure, EStateM.pure]
    · -- The block would be left open, and so would be those around it.
      obtain ⟨n, hn⟩ := hclosed
      rw [htokens, hleads.tokens_eq, State.tokens, hs'.eof_iff.1 hkind] at hn
      have hlifted := hinside.lift (n + 1)
      rw [Nat.zero_add] at hlifted
      have hleft := ((hn.rest (hindent n)).rest hlifted).total
      simp [Token.isIndent, Token.isDedent, hkind] at hleft

theorem Step.enclosed {ι : Type} {d : Demand ι} {t : Token} {ts : List Token} (hn : ¬ d.flat)
    (hcur : s.cur.kind = .indent) (hahead : s.ahead = t :: ts)
    (hstep : (⟨t, ts, s.found⟩ : State).Step d s')
    (hs' : s'.Within text k) (hend : endsBlock s'.cur.kind = true) :
    ∃ b s'', Parser.accept .dedent s' = .ok b s'' ∧ s''.found = s'.found ∧ s''.Within text k ∧
      s.Step d s'' := by
  obtain ⟨b, s'', haccept, hfound, hs'', hleads, heven⟩ :=
    hstep.toLeads.enclosed hcur hahead hs' hend
  have hquotes : ∀ e ∈ s''.found, e ∈ s.found ∨ e.Quotes (tokensOf d.text) :=
    fun e he => hstep.quotes e (hfound ▸ he)
  refine ⟨b, s'', haccept, hfound, hs'', ⟨hleads, fun h => absurd h hn, hquotes⟩,
    fun hd hsame hclosed => ?_⟩
  have hinside := hstep.even hd (hfound.symm.trans hsame) (hclosed.tail hahead)
  exact (heven hclosed hinside).2.2

end State

namespace Proceeds

variable {ι α β : Type} {d : Demand ι} {j k : Nat} {s : State} {Q : α → State → Prop}
  {R : β → State → Prop}

theorem reported {x y : ι → Parse α} {e : Diagnostic} {s₁ s₂ : State} (hn : ¬ d.flat)
    (hs₁ : s.Way d s₁) (he : e.Quotes (tokensOf d.text)) (hs₂ : (s₁.reporting e).Way d s₂)
    (hxy : ∀ i, d.exact i → x i s = y i s₂) (hy : Proceeds d k y s₂ Q) : Proceeds d k x s Q := by
  have hway : s.Way d s₂ := (hs₁.trans (.reporting hn he)).trans hs₂
  obtain ⟨r, hr, hallowed⟩ := hy
  refine ⟨r, ?_, ?_⟩
  · rintro i (hexact | ⟨-, hclean⟩)
    · rw [hxy i hexact, hr i (.inl hexact)]
    · cases r with
      | ok a s₃ =>
        exact absurd hclean.2 (hs₁.toLeads.reported (hs₂.toLeads.trans hallowed.1.toLeads)).2
      | error e' s₃ => exact hclean.elim
  · match r, hallowed with
    | .ok _ _, hallowed =>
      obtain ⟨-, hfound⟩ := hs₁.toLeads.reported (hs₂.toLeads.trans hallowed.1.toLeads)
      exact ⟨⟨hway.trans hallowed.1.toWay, fun _ h => absurd h hfound⟩, hallowed.2⟩
    | .error (.complaint _) _, hallowed =>
      exact ⟨hallowed.1, hway.trans hallowed.2.1, hallowed.2.2⟩
    | .error .outOfFuel _, hallowed => exact hallowed

/-- A failure is reported where it is caught, and so does not have to be agreed on if only clean
outcomes do. -/
theorem attempted {x : ι → Parse α} {f : ι → Except Diagnostic α → Parse β}
    {g : ι → Parse β} (hn : ¬ d.flat) (sync : State → State)
    (hx : Proceeds { d with fails := True } j x s Q)
    (hok : ∀ a s', s'.Within d.text j → Q a s' → Proceeds d k (fun i => f i (.ok a)) s' R)
    (herror : ∀ i e s', f i (.error e) s' = g i (sync (s'.reporting e)))
    (hsync : ∀ s' : State, s'.Way d (sync s'))
    (hg : ∀ e s', s.Leads s' → Proceeds d k g (sync (s'.reporting e)) R) :
    Proceeds d k (fun i => Parser.outcome (x i) >>= f i) s R := by
  obtain ⟨r, hr, hallowed⟩ := hx
  match r, hallowed with
  | .ok a s', ⟨⟨hway, heven⟩, hwithin, ha⟩ =>
    have houtcome : Proceeds d j (fun i => Parser.outcome (x i)) s
        fun o s' => ∃ a, o = .ok a ∧ Q a s' := by
      refine ⟨.ok (.ok a) s', fun i hi => ?_, ⟨⟨hway.toLeads, hway.along, hway.quotes⟩, heven⟩,
        hwithin, a, rfl, ha⟩
      simp only [Parser.outcome, hr i hi]
    refine houtcome.bind fun o s'' hs'' ho => ?_
    obtain ⟨a, rfl, ha⟩ := ho
    exact hok a s'' hs'' ha
  | .error (.complaint e) s', ⟨_, hway, he⟩ =>
    refine reported hn ⟨hway.toLeads, hway.along, hway.quotes⟩ he (hsync _) (fun i hexact => ?_)
      (hg e s' hway.toLeads)
    simp only [Bind.bind, EStateM.bind, Parser.outcome, hr i (.inl hexact), herror]
  | .error .outOfFuel s', hspends =>
    refine ⟨.error .outOfFuel s', fun i hi => ?_, hspends⟩
    simp only [Bind.bind, EStateM.bind, Parser.outcome, hr i (hi.of_error _ s)]

/-- Statements go on to the end of the block or of the text, and end early only for want of fuel.
All that are kept are as the statements are asked to be. -/
theorem statements {P : Stmt → Prop} {stmt : ι → Parse Stmt} (ends stray : Kind → Bool)
    {f : ι → Nat} (hn : ¬ d.flat)
    (hstmt : ∀ j < k, ∀ s, s.Within d.text (j + 1) →
      Proceeds { d with fails := True } j stmt s (Made P))
    (heof : ends .eof = true) (hdedent : ends .dedent = true ∨ stray .dedent = true)
    (hstray : d.even → ∀ c, stray c = true → c.isFlat = true)
    (hf : Enough d.spends k f) (hs : s.Within d.text k) :
    Proceeds d k (fun i => Parser.statements (stmt i) ends stray (f i)) s
      fun body s' => (∀ a ∈ body, P a) ∧ ends s'.cur.kind = true := by
  induction k generalizing s f with
  | zero => exact absurd hs.pos (Nat.lt_irrefl 0)
  | succ k ih =>
    obtain ⟨hspends, rfl⟩ | ⟨g, rfl, hg⟩ := hf.pred
    · exact .outOfFuel hspends
    have hrest : ∀ s', s'.Within d.text k → Proceeds d (k + 1)
        (fun i => Parser.statements (stmt i) ends stray (g i)) s'
          fun body s' => (∀ a ∈ body, P a) ∧ ends s'.cur.kind = true := by
      intro s' hs'
      exact (ih (fun j hj => hstmt j (Nat.lt_succ_of_lt hj)) hg hs').mono (Nat.le_succ k)
    refine .look ?_
    split
    · exact .pure hs ⟨nofun, ‹_›⟩
    · rename_i hends
      have hne : s.cur.kind ≠ .eof := fun h => hends (h ▸ heof)
      split
      · rename_i hsep
        have hflat := fun h : d.even ∨ d.flat => hstray (h.resolve_right hn) _ hsep
        exact (pass hs hne hflat).bind fun _ s' hs' _ => hrest s' hs'
      · rename_i hsep
        split
        · rename_i hindent
          have hwithin := within_skipBlock (hs.reporting ⟨s.cur.pos, .unexpectedIndent⟩) hindent
          exact reported (e := ⟨s.cur.pos, .unexpectedIndent⟩) hn (.refl s)
            (Diagnostic.quotes_of_ne nofun) (way_behind hn (skipBlock_suffix _ _ _))
            (fun _ _ => rfl) (hrest _ hwithin)
        · have hnd : s.cur.kind ≠ .dedent :=
            fun h => hdedent.elim (fun h' => hends (h ▸ h')) fun h' => hsep (h ▸ h')
          refine attempted hn (fun s' => s'.behind (nextStatement s'.cur s'.ahead))
            (g := fun i => Parser.statements (stmt i) ends stray (g i))
            (hstmt k (Nat.lt_succ_self k) s hs) ?_ (fun _ _ _ => rfl)
            (fun s' => way_behind hn (nextStatement_suffix _ _)) ?_
          · intro a s' hs' ha
            exact (hrest s' hs').bind fun body s'' hs'' hbody =>
              .pure hs'' ⟨List.forall_mem_cons.2 ⟨ha, hbody.1⟩, hbody.2⟩
          · intro e s' hleads
            have hwithin := within_nextStatement hs hne hnd hleads
            exact hrest _ ⟨hwithin.suffix, hwithin.weight⟩

theorem enclosed {P : α → Prop} {x : ι → Parse α} {f : ι → α → Parse β} (hn : ¬ d.flat)
    (hs : s.Within d.text (k + 1)) (hcur : s.cur.kind = .indent)
    (hx : ∀ s', s'.Within d.text k →
      Proceeds d k x s' fun a s'' => P a ∧ endsBlock s''.cur.kind = true)
    (hf : ∀ a s', s'.Within d.text k → P a → Proceeds d k (fun i => f i a) s' R) :
    Proceeds d k (fun i => Parser.advance >>= fun _ => x i >>= fun a =>
      Parser.accept .dedent >>= fun _ => f i a) s R := by
  obtain ⟨t, ts, hahead, hwithin⟩ := hs.ahead (by simp [hcur])
  have hfirst : s.Way d ⟨t, ts, s.found⟩ :=
    ⟨⟨⟨[s.cur], (tokens_cons hahead).symm⟩, List.suffix_rfl⟩, fun h => absurd h hn, fun _ => .inl⟩
  obtain ⟨r, hr, hallowed⟩ := hx _ hwithin
  match r, hallowed with
  | .error (.complaint e) s', hallowed =>
    refine ⟨.error (.complaint e) s', fun i hi => ?_, hallowed.1, hfirst.trans hallowed.2.1,
      hallowed.2.2⟩
    simp only [Bind.bind, EStateM.bind, Parser.advance, hahead, hr i (hi.of_error _ _)]
  | .error .outOfFuel s', hspends =>
    refine ⟨.error .outOfFuel s', fun i hi => ?_, hspends⟩
    simp only [Bind.bind, EStateM.bind, Parser.advance, hahead, hr i (hi.of_error _ _)]
  | .ok a s', hallowed =>
    obtain ⟨hstep, hs', ha, hend⟩ := hallowed
    obtain ⟨b, s'', haccept, hfound, hs'', hall⟩ := Step.enclosed hn hcur hahead hstep hs' hend
    obtain ⟨r', hr', hallowed'⟩ := hf a s'' hs'' ha
    refine ⟨r', fun i hi => ?_, hallowed'.before hall⟩
    obtain ⟨hblock, hrest⟩ := hi.parts (a := a) hall hallowed'
    have hinside : d.Binds ⟨t, ts, s.found⟩ (.ok a s') i :=
      hblock.imp_right fun h => ⟨h.1, h.2.1.tail hahead, hfound.symm.trans h.2.2⟩
    simp only [Bind.bind, EStateM.bind, Parser.advance, hahead, hr i hinside, haccept, hr' i hrest]

end Proceeds

end Spellbook.Parser
