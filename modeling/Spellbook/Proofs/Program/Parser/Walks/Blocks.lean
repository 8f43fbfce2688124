import Spellbook.Proofs.Program.Parser.Walks.Basic

/-! Runs of statements and bodies walk if their statements do. Recovery skips whole blocks, and so
gets to where as many blocks are open as at the failure. -/
namespace Spellbook.Parser

open State

/-! Recovery -/

section Recovery

variable {n depth : Nat} {cur : Token} {ts : List Token}

theorem endsWithEof_tail {next : Token} {rest : List Token} (h : EndsWithEof (cur :: next :: rest)) :
    EndsWithEof (next :: rest) :=
  h.of_suffix (List.suffix_cons _ _) (List.cons_ne_nil _ _)

theorem levels_skipBlock (hdepth : 0 < depth) (hends : EndsWithEof (cur :: ts))
    (h : Levels (n + depth) (cur :: ts) 0) :
    ∃ gone, cur :: ts = gone ++ (skipBlock depth cur ts).1 :: (skipBlock depth cur ts).2 ∧
      Levels depth gone 0 := by
  fun_induction skipBlock depth cur ts with
  | case1 depth cur =>
    -- The text would end in a block.
    have hk : cur.kind = .eof := hends.eof_iff.2 rfl
    have hleft := ((levels_other (by simp [hk]) (by simp [hk])).1 h).total
    simp only [List.countP_nil] at hleft
    omega
  | case2 depth cur next rest heof => exact absurd (hends.eof_iff.1 heof) (List.cons_ne_nil _ _)
  | case3 depth cur next rest hindent ih =>
    obtain ⟨gone, hgone, hlevels⟩ :=
      ih (Nat.succ_pos depth) (endsWithEof_tail hends) ((levels_indent hindent).1 h)
    exact ⟨cur :: gone, congrArg (cur :: ·) hgone, (levels_indent hindent).2 hlevels⟩
  | case4 depth cur next rest hdedent hle =>
    obtain rfl : depth = 1 := by omega
    exact ⟨[cur], rfl, (levels_dedent hdedent).2 (.nil 0)⟩
  | case5 depth cur next rest hdedent hlt ih =>
    obtain ⟨depth, rfl⟩ := Nat.exists_eq_add_one.2 hdepth
    obtain ⟨gone, hgone, hlevels⟩ :=
      ih (by omega) (endsWithEof_tail hends) ((levels_dedent hdedent).1 h)
    exact ⟨cur :: gone, congrArg (cur :: ·) hgone, (levels_dedent hdedent).2 hlevels⟩
  | case6 depth cur next rest heof hindent hdedent ih =>
    obtain ⟨gone, hgone, hlevels⟩ :=
      ih hdepth (endsWithEof_tail hends) ((levels_other hindent hdedent).1 h)
    exact ⟨cur :: gone, congrArg (cur :: ·) hgone, (levels_other hindent hdedent).2 hlevels⟩

theorem levels_skipBlock_indent (hcur : cur.kind = .indent) (hends : EndsWithEof (cur :: ts))
    (h : Levels n (cur :: ts) 0) :
    ∃ gone, cur :: ts = gone ++ (skipBlock 0 cur ts).1 :: (skipBlock 0 cur ts).2 ∧
      Levels 0 gone 0 := by
  cases ts with
  | nil => exact absurd (hends.eof_iff.2 rfl) (by simp [hcur])
  | cons next rest =>
    obtain ⟨gone, hgone, hlevels⟩ := levels_skipBlock Nat.zero_lt_one (endsWithEof_tail hends)
      ((levels_indent hcur).1 h)
    have hskip : skipBlock 0 cur (next :: rest) = skipBlock 1 next rest := by
      simp [skipBlock, hcur]
    rw [hskip]
    exact ⟨cur :: gone, congrArg (cur :: ·) hgone, (levels_indent hcur).2 hlevels⟩

theorem levels_nextStatement (hends : EndsWithEof (cur :: ts)) (h : Levels n (cur :: ts) 0) :
    ∃ gone, cur :: ts = gone ++ (nextStatement cur ts).1 :: (nextStatement cur ts).2 ∧
      Levels 0 gone 0 := by
  fun_induction nextStatement cur ts with
  | case1 | case2 | case3 => exact ⟨[], rfl, .nil 0⟩
  | case4 cur next rest hline hindent =>
    have hi : cur.kind ≠ .indent := by simp [hline]
    have hd : cur.kind ≠ .dedent := by simp [hline]
    obtain ⟨gone, hgone, hlevels⟩ :=
      levels_skipBlock_indent hindent (endsWithEof_tail hends) ((levels_other hi hd).1 h)
    exact ⟨cur :: gone, congrArg (cur :: ·) hgone, (levels_other hi hd).2 hlevels⟩
  | case5 cur next rest hline =>
    exact ⟨[cur], rfl, (levels_other (by simp [hline]) (by simp [hline])).2 (.nil 0)⟩
  | case6 cur next rest hindent behind ih =>
    have hinside := (levels_indent hindent).1 h
    obtain ⟨block, hblock, hlevels⟩ :=
      levels_skipBlock Nat.zero_lt_one (endsWithEof_tail hends) hinside
    have hsuffix : behind.1 :: behind.2 <:+ cur :: next :: rest :=
      (skipBlock_suffix 1 next rest).trans (List.suffix_cons _ _)
    rw [hblock] at hinside
    have hlifted := hlevels.lift n
    rw [Nat.add_comm 1 n, Nat.zero_add] at hlifted
    obtain ⟨gone, hgone, hlevels'⟩ :=
      ih (hends.of_suffix hsuffix (List.cons_ne_nil _ _)) (hinside.rest hlifted)
    refine ⟨cur :: block ++ gone, ?_, (levels_indent hindent).2 (hlevels.append hlevels')⟩
    rw [hblock, hgone, List.cons_append, List.cons_append, List.append_assoc]
  | case7 cur next rest heof hdedent hline hindent ih =>
    obtain ⟨gone, hgone, hlevels⟩ :=
      ih (endsWithEof_tail hends) ((levels_other hindent hdedent).1 h)
    exact ⟨cur :: gone, congrArg (cur :: ·) hgone, (levels_other hindent hdedent).2 hlevels⟩

end Recovery

variable {source : String} {fuel k : Nat} {s₀ s s' : State} {P Q : Prop}

theorem suffix_behind {t : Token} {ts : List Token} (hahead : s.ahead = t :: ts)
    (hs : s.tokens <:+ tokensOf source) :
    (⟨t, ts, s.found⟩ : State).tokens <:+ tokensOf source := by
  rw [tokens_cons hahead] at hs
  exact (List.suffix_append _ _).trans hs

namespace Reaches

theorem suffix (h : Reaches source s₀ P s) (hs₀ : s₀.tokens <:+ tokensOf source) :
    s.tokens <:+ tokensOf source :=
  h.tokens.trans hs₀

theorem weigh_le (h : Reaches source s₀ P s) : weigh s.tokens ≤ weigh s₀.tokens := by
  rw [h.tokens_eq, weigh_append]
  exact Nat.le_add_left _ _

theorem within (h : Reaches source s₀ P s) (hs₀ : s₀.tokens <:+ tokensOf source) :
    s.Within source (weigh s.tokens) :=
  ⟨h.suffix hs₀, Nat.le_refl _⟩

theorem ahead (h : Reaches source s₀ P s) (hs₀ : s₀.tokens <:+ tokensOf source)
    (hcur : s.cur.kind ≠ .eof) : ∃ t ts, s.ahead = t :: ts := by
  obtain ⟨t, ts, hahead, -⟩ := ((h.within hs₀).mono (Nat.le_succ _)).ahead hcur
  exact ⟨t, ts, hahead⟩

theorem one {t : Token} {ts : List Token} (h : Reaches source s₀ P s) (hahead : s.ahead = t :: ts)
    (hcur : s.cur.kind.isFlat = true) : Reaches source s₀ P ⟨t, ts, s.found⟩ := by
  have hstep : s.Step (@Demand.level Unit source True) ⟨t, ts, s.found⟩ := .one hahead fun _ => hcur
  exact h.along hstep.toLeads (hstep.along trivial)

section Recovery

variable (herrors : lexErrorsOf source = []) (hs₀ : s₀.tokens <:+ tokensOf source)
  (h : Reaches source s₀ P s)

include herrors hs₀ h

theorem behind {rest : Token × List Token}
    (hrest : ∀ n, EndsWithEof s.tokens → Levels n s.tokens 0 →
      ∃ gone, s.tokens = gone ++ rest.1 :: rest.2 ∧ Levels 0 gone 0) :
    Reaches source s₀ P (s.behind rest) := by
  obtain ⟨n, hn⟩ := closed_of_suffix herrors (h.suffix hs₀)
  obtain ⟨gone, hgone, hlevels⟩ := hrest n (h.within hs₀).ends hn
  have htaken : s.taken (s.behind rest) = gone := taken_eq hgone
  refine h.step (leads_behind ⟨gone, hgone.symm⟩) fun _ => ?_
  rw [State.Even, htaken]
  exact hlevels

theorem recovered : Reaches source s₀ P (s.behind (nextStatement s.cur s.ahead)) :=
  h.behind herrors hs₀ fun _ => levels_nextStatement

theorem skipped (hindent : s.cur.kind = .indent) :
    Reaches source s₀ P (s.behind (skipBlock 0 s.cur s.ahead)) :=
  h.behind herrors hs₀ fun _ => levels_skipBlock_indent hindent

end Recovery

theorem enclosed {t : Token} {ts : List Token} (herrors : lexErrorsOf source = [])
    (hs : s.tokens <:+ tokensOf source) (hcur : s.cur.kind = .indent) (hahead : s.ahead = t :: ts)
    (h : Reaches source ⟨t, ts, s.found⟩ P s') (hend : endsBlock s'.cur.kind = true) :
    ∃ b s'', Parser.accept .dedent s' = .ok b s'' ∧
      Reaches source s (P ∧ s'.cur.kind = .dedent ∧ s'.tokens = s'.cur :: s''.tokens ∧
        (⟨t, ts, s.found⟩ : State).Even s') s'' := by
  obtain ⟨b, s'', haccept, hfound, -, hleads, heven⟩ :=
    h.toLeads.enclosed hcur hahead (h.within (suffix_behind hahead hs)) hend
  refine ⟨b, s'', haccept, hleads, fun hs'' => ?_⟩
  have hs' : Regular source s' := fun e he => hs'' e (hfound ▸ he)
  obtain ⟨hinside, hP⟩ := h.orderly hs'
  obtain ⟨hdedent, htokens, hall⟩ := heven (closed_of_suffix herrors hs) hinside
  exact ⟨hall, hP, hdedent, htokens, hinside⟩

end Reaches

/-- A statement that stands where no more blocks are open than at `s`. -/
def Starts (fuel : Nat) (s : State) (a : Stmt) : Prop :=
  ∃ t, s.Leads t ∧ s.Even t ∧ t.cur.kind ≠ .dedent ∧ Stands fuel t a

/-- The statements of the text walk, given this much fuel. -/
def StmtsWalk (source : String) (fuel : Nat) : Prop :=
  ∀ s, s.tokens <:+ tokensOf source → weigh s.tokens + 1 < fuel →
    Walks source s (Stands fuel s) (stmt fuel) s

/-- What is known where a statement is read whose parts are given this much fuel. -/
structure Setting (source : String) (fuel : Nat) (s : State) : Prop where
  errors : lexErrorsOf source = []
  stmts : StmtsWalk source fuel
  suffix : s.tokens <:+ tokensOf source
  weight : weigh s.tokens < fuel

namespace Walks

theorem statements {ends stray : Kind → Bool} (herrors : lexErrorsOf source = [])
    (hstmt : StmtsWalk source fuel) (hs₀ : s₀.tokens <:+ tokensOf source)
    (hfuel : weigh s₀.tokens + 1 < fuel) (heof : ends .eof = true)
    (hdedent : ends .dedent = true ∨ stray .dedent = true ∧ Levels 0 s₀.tokens 0)
    (hstray : ∀ c, stray c = true → c.isFlat = true ∨ c = .dedent) (n : Nat)
    (h : Reaches source s₀ P s) :
    Walks source s₀ (fun body => P ∧ ∀ a ∈ body, Starts fuel s₀ a)
      (Parser.statements (stmt fuel) ends stray n) s := by
  induction n generalizing P s with
  | zero => exact .outOfFuel
  | succ n ih =>
    have hs := h.suffix hs₀
    have hweight : weigh s.tokens + 1 < fuel :=
      Nat.lt_of_le_of_lt (Nat.succ_le_succ h.weigh_le) hfuel
    refine .look ?_
    split
    · exact .pure h fun hP => ⟨hP, List.forall_mem_nil _⟩
    · rename_i hgo
      have hne : s.cur.kind ≠ .eof := fun hk => hgo (hk ▸ heof)
      obtain ⟨t, ts, hahead⟩ := h.ahead hs₀ hne
      split
      · rename_i hsep
        have hnext : Reaches source s₀ P ⟨t, ts, s.found⟩ := by
          obtain hflat | hk := hstray _ hsep
          · exact h.one hahead hflat
          · -- No DEDENT is left over where no block is open.
            obtain hend | ⟨-, htop⟩ := hdedent
            · exact absurd (hk ▸ hend) hgo
            · refine h.step ⟨⟨[s.cur], (tokens_cons hahead).symm⟩, List.suffix_rfl⟩ fun hs' => ?_
              rw [h.tokens_eq] at htop
              exact absurd hk (ne_dedent_of_top (htop.rest (h.orderly hs').1))
        refine bind (R := fun _ => P) ?_ fun _ s' h' => ih h'
        simp only [Walks, advance, hahead]
        exact hnext
      · rename_i hsep
        have hnd : s.cur.kind ≠ .dedent :=
          fun hk => hdedent.elim (fun h' => hgo (hk ▸ h')) fun h' => hsep (hk ▸ h'.1)
        split
        · exact ih ((h.reporting _).skipped herrors hs₀ ‹_›)
        · refine .caught (fun a s' hx => ?_) fun e s' hx => ?_
          · have hthere := (trans h.even (hstmt s hs hweight)).ok hx
            refine (ih hthere).bind fun body s'' h'' => .pure h'' ?_
            rintro ⟨⟨⟨hP, heven⟩, hstands⟩, hbody⟩
            exact ⟨hP, List.forall_mem_cons.2 ⟨⟨s, h.toLeads, heven, hnd, hstands⟩, hbody⟩⟩
          · have hthere := (h.trans ((hstmt s hs hweight).error hx)).imp And.left
            exact ih (hthere.recovered herrors hs₀)

/-! Bodies -/

section Bodies

variable {t u : Token} {ts us : List Token}

theorem weigh_behind (hahead : s.ahead = t :: ts) :
    weigh (⟨t, ts, s.found⟩ : State).tokens < weigh s.tokens := by
  rw [tokens_cons hahead, weigh_append]
  have hpos := s.cur.weight_pos
  simp only [weigh_cons]
  omega

theorem before_dedent {inner rest before after : List Token} {dedent : Token}
    (heq : inner ++ dedent :: rest = before ++ t :: after) (hinner : Levels 0 inner 0)
    (hbefore : Levels 0 before 0) (hdedent : dedent.kind = .dedent) (ht : t.kind ≠ .dedent) :
    ∃ more, inner = before ++ t :: more ∧ after = more ++ dedent :: rest := by
  obtain ⟨gap, hgap, hrest⟩ | ⟨gap, hgap, hrest⟩ := List.append_eq_append_iff.1 heq
  · cases gap with
    | nil => exact absurd ((List.cons.inj hrest).1 ▸ hdedent) ht
    | cons t' gap =>
      -- The DEDENT would stand before the statement, where no block is open.
      obtain ⟨rfl, -⟩ := List.cons.inj hrest
      rw [hgap] at hbefore
      exact absurd (hbefore.rest hinner) (not_levels_dedent hdedent)
  · cases gap with
    | nil => exact absurd ((List.cons.inj hrest).1 ▸ hdedent) ht
    | cons t' gap =>
      obtain ⟨rfl, hafter⟩ := List.cons.inj hrest
      exact ⟨gap, hgap, hafter⟩

theorem statements_end (fuel : Nat) (ends stray : Kind → Bool) {n : Nat} (hs : s.Within source k)
    (hfuel : k + 1 < fuel) (hn : k < n) (heof : ends .eof = true)
    (hdedent : ends .dedent = true ∨ stray .dedent = true) :
    ∃ body s', Parser.statements (stmt fuel) ends stray n s = .ok body s' ∧
      ends s'.cur.kind = true := by
  obtain ⟨r, hr, hallowed⟩ := proceeds_statements ends stray heof hdedent
    (fun _ : Unit => hfuel) (fun _ => hn) hs
  match r, hallowed with
  | .error (.complaint _) _, hallowed => exact hallowed.1.elim
  | .error .outOfFuel _, hallowed => exact hallowed.elim
  | .ok body s', hallowed => exact ⟨body, s', hr () (.inl trivial), hallowed.2.2.2⟩

variable (hset : Setting source fuel s₀)

include hset

theorem blockLine (h : Reaches source s₀ P s) (hcolon : s.cur.kind = .symbol .colon)
    (hahead : s.ahead = t :: ts) (hline : t.kind ≠ .newline) :
    Walks source s₀ (fun all => P ∧ BodyAt (Stands fuel) s all) (Parser.block (partsWith fuel))
      s := by
  have h₁ := h.one hahead (by simp [hcolon, Kind.isFlat])
  have hweight : weigh (⟨t, ts, s.found⟩ : State).tokens + 1 < fuel :=
    Nat.lt_of_le_of_lt (Nat.le_trans (weigh_behind hahead) h.weigh_le) hset.weight
  have hblock : Parser.block (partsWith fuel) s =
      (stmt fuel >>= fun b => Pure.pure [b]) ⟨t, ts, s.found⟩ := by
    simp [Parser.block, Parser.expect, Parser.check, advance, Bind.bind, EStateM.bind, hcolon,
      hahead, hline, partsWith]
  have hstmt := hset.stmts _ (h₁.suffix hset.suffix) hweight
  refine .of_eq hblock ((trans h₁ hstmt).bind fun b s' h' => .pure h' ?_)
  rintro ⟨hP, hb⟩
  exact ⟨hP, .line (t := ⟨t, ts, s.found⟩) hahead hline (List.forall_mem_singleton.2 hb)⟩

theorem blockBelow (h : Reaches source s₀ P s) (hcolon : s.cur.kind = .symbol .colon)
    (hahead : s.ahead = t :: u :: us) (hline : t.kind = .newline) (hindent : u.kind = .indent) :
    Walks source s₀ (fun all => P ∧ BodyAt (Stands fuel) s all) (Parser.block (partsWith fuel))
      s := by
  have h₁ := h.one hahead (by simp [hcolon, Kind.isFlat])
  have h₂ := h₁.one rfl (by simp [hline, Kind.isFlat])
  have hs₂ := h₂.suffix hset.suffix
  obtain ⟨v, vs, rfl⟩ := h₂.ahead hset.suffix (by simp [hindent])
  let inside : State := ⟨v, vs, s.found⟩
  have hweight : weigh inside.tokens + 1 < fuel :=
    Nat.lt_of_le_of_lt (Nat.le_trans (weigh_behind (s := ⟨u, v :: vs, s.found⟩) rfl) h₂.weigh_le)
      hset.weight
  have hs : inside.tokens <:+ tokensOf source := suffix_behind (s := ⟨u, v :: vs, s.found⟩) rfl hs₂
  obtain ⟨body, last, hbody, hend⟩ := statements_end fuel endsBlock isSeparator
    ((Reaches.refl source inside).within hs) hweight (Nat.lt_of_succ_lt hweight) rfl (.inl rfl)
  have hinside := (statements hset.errors hset.stmts hs hweight rfl (.inl rfl)
    (fun c hc => .inl (isFlat_of_isSeparator hc)) fuel (.refl source inside)).ok hbody
  obtain ⟨b, s', haccept, hall⟩ := hinside.enclosed hset.errors hs₂ hindent rfl hend
  have hblock : Parser.block (partsWith fuel) s = .ok body s' := by
    simp only [inside] at hbody
    simp [Parser.block, Parser.expect, Parser.check, advance, Bind.bind, EStateM.bind, hcolon,
      hahead, hline, hindent, partsWith, hbody, haccept, Pure.pure, EStateM.pure]
  rw [Walks, hblock]
  refine (h₂.trans hall).imp ?_
  rintro ⟨hP, ⟨-, hstarts⟩, hdedent, htokens, heven⟩
  have hinner : inside.tokens = inside.taken last ++ last.cur :: s'.tokens := by
    rw [← htokens]
    exact hinside.tokens_eq
  have hbehind : s.ahead = t :: u :: inside.taken last ++ last.cur :: s'.tokens := by
    rw [hahead, List.cons_append, List.cons_append, ← hinner]
    rfl
  refine ⟨hP, .block hbehind hline hindent hdedent heven fun a ha => ?_⟩
  · obtain ⟨w, hleads, hbefore, hw, hstands⟩ := hstarts a ha
    obtain ⟨more, hmore, hafter⟩ :=
      before_dedent (hinner.symm.trans hleads.tokens_eq) heven hbefore hdedent hw
    exact ⟨inside.taken w, more, w, hmore, hbefore, hafter, hstands⟩

theorem block (h : Reaches source s₀ P s) :
    Walks source s₀ (fun body => P ∧ Attached fuel (Stands fuel) 0 s₀ body)
      (Parser.block (partsWith fuel)) s := by
  by_cases hcolon : s.cur.kind = .symbol .colon
  swap
  · refine .stuck (e := ⟨s.cur.pos, .expected (.symbol .colon) s.cur⟩) h ?_
    simp only [Parser.block, Bind.bind, EStateM.bind, Proceeds.expect_of_ne hcolon]
  obtain ⟨t, ts, hahead⟩ := h.ahead hset.suffix (by simp [hcolon])
  have h₁ := h.one hahead (by simp [hcolon, Kind.isFlat])
  have hat : Walks source s₀ (fun all => (P ∧ s₀.Even s) ∧ BodyAt (Stands fuel) s all)
      (Parser.block (partsWith fuel)) s := by
    by_cases hline : t.kind = .newline
    swap
    · exact blockLine hset h.even hcolon hahead hline
    obtain ⟨u, us, rfl⟩ := h₁.ahead hset.suffix (by simp [hline])
    by_cases hindent : u.kind = .indent
    · exact blockBelow hset h.even hcolon hahead hline hindent
    · have h₂ := h₁.one rfl (by simp [hline, Kind.isFlat])
      refine .of_eq (y := failHere .missingBlock) ?_ (.stuck h₂ rfl)
      simp [Parser.block, Parser.expect, Parser.check, advance, Bind.bind, EStateM.bind, hcolon,
        hahead, hline, hindent]
      rfl
  refine hat.self.imp ?_
  rintro all ⟨⟨⟨hP, heven⟩, hbody⟩, s', hall⟩
  exact ⟨hP, s, all, s', h.toLeads, heven, hcolon, hall, fun _ => id, hbody⟩

end Bodies

end Walks

end Spellbook.Parser
