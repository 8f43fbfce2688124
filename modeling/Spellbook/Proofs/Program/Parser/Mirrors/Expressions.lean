import Spellbook.Proofs.Program.Parser.Mirrors.Basic
import Spellbook.Proofs.Program.Parser.Proceeds.Expressions

/-! Expressions are read alike from states that are paired. What stands in a hole of a template has
a text of its own, so that the same is asked of the operands for every pairing. -/
namespace Spellbook.Parser

def Pairing.same : Pairing where
  rel _ s t := s = t
  cur h _ := h ▸ rfl
  follows h _ := h ▸ rfl
  take h _ := h ▸ rfl

/-- The operands are read alike, by whatever the states are paired. -/
def OperandsMirror (operand operand' : Operand) : Prop :=
  ∀ (P : Pairing) n level,
    Mirrors (P.rel n) (P.rel n) (operand level) (operand' level) (Like Expr.bare)

namespace Mirrors

variable {P : Pairing} {n f g : Nat} {operand operand' : Operand}
  {Post : State → State → Prop}

section Operands

variable (ho : OperandsMirror operand operand')

include ho

theorem items {close : Kind} (hclose : close.isSolid = true) (hfg : f ≤ g) :
    Mirrors (P.rel n) (P.rel n) (Parser.items operand close f) (Parser.items operand' close g)
      (Like Expr.bareAll) := by
  induction f generalizing g with
  | zero => exact of_fails fails_outOfFuel
  | succ f ih =>
    obtain ⟨g, rfl⟩ := Nat.exists_eq_add_one.2 (Nat.lt_of_lt_of_le (Nat.succ_pos f) hfg)
    refine (check hclose).bind fun b b' hb => ?_
    obtain rfl : b' = b := hb
    split
    · exact .pure rfl
    · refine (ho P n .lowest).bind fun e e' he => ?_
      refine ifAccept (c := .symbol .comma) rfl ?_ (.pure ?_)
      · refine (ih (Nat.le_of_succ_le_succ hfg)).bind fun es es' hes => .pure ?_
        simp only [Like, Expr.bareAll, he, hes]
      · simp only [Like, Expr.bareAll, he]

theorem sequence {close : Kind} (hclose : close.isTaken n = true) (hfg : f ≤ g) :
    Mirrors (P.rel n) (P.rel (Lexer.nestingAfter n close)) (Parser.sequence f operand close)
      (Parser.sequence g operand' close) (Like Expr.bareAll) :=
  (items ho (Kind.isSolid_of_isTaken hclose) hfg).bind fun _ _ hes =>
    (expect hclose).bind fun _ _ _ => .pure hes

theorem entries (hfg : f ≤ g) :
    Mirrors (P.rel (n + 1)) (P.rel (n + 1)) (Parser.entries operand f) (Parser.entries operand' g)
      (Like Expr.bareEntries) := by
  induction f generalizing g with
  | zero => exact of_fails fails_outOfFuel
  | succ f ih =>
    obtain ⟨g, rfl⟩ := Nat.exists_eq_add_one.2 (Nat.lt_of_lt_of_le (Nat.succ_pos f) hfg)
    refine (check (c := .symbol .rightBrace) rfl).bind fun b b' hb => ?_
    obtain rfl : b' = b := hb
    split
    · exact .pure rfl
    · refine (ho P _ .lowest).bind fun k k' hk => ?_
      refine (expect (c := .symbol .colon) rfl).bind fun _ _ _ => ?_
      refine (ho P _ .lowest).bind fun v v' hv => ?_
      refine ifAccept (c := .symbol .comma) rfl ?_ (.pure ?_)
      · refine (ih (Nat.le_of_succ_le_succ hfg)).bind fun es es' hes => .pure ?_
        simp only [Like, Expr.bareEntries, hk, hv, hes]
      · simp only [Like, Expr.bareEntries, hk, hv]

theorem grouping (hfg : f ≤ g) :
    Mirrors (P.at n (.symbol .leftParen)) (P.rel n) (Parser.grouping f operand)
      (Parser.grouping g operand') (Like Expr.bare) := by
  refine (advance rfl).bind fun _ _ _ => ?_
  refine ifAccept (c := .symbol .rightParen) rfl (.pure ?_) ?_
  · simp only [Like, Expr.bare]
  · refine (ho P _ .lowest).bind fun e e' he => ?_
    refine ifAccept (c := .symbol .comma) rfl ?_ ?_
    · refine (sequence ho rfl hfg).bind fun es es' hes => .pure ?_
      simp only [Like, Expr.bare, Expr.bareAll, he, hes]
    · exact (expect rfl).bind fun _ _ _ => .pure he

theorem bracketed {object object' : Expr} (hobject : Like Expr.bare object object') :
    Mirrors (P.at n (.symbol .leftBracket)) (P.rel n) (Parser.bracketed operand object)
      (Parser.bracketed operand' object') (Like Expr.bare) := by
  refine (advance rfl).bind fun p p' _ => ?_
  have hdone : ∀ start start' stop stop' : Option Expr, Like Expr.bareBound start start' →
      Like Expr.bareBound stop stop' → Mirrors (P.rel (n + 1)) (P.rel n) (do
        let _ ← Parser.expect (.symbol .rightBracket)
        return Expr.slice p.pos object start stop) (do
        let _ ← Parser.expect (.symbol .rightBracket)
        return Expr.slice p'.pos object' start' stop') (Like Expr.bare) := by
    intro start start' stop stop' hstart hstop
    refine (expect rfl).bind fun _ _ _ => .pure ?_
    simp only [Like, Expr.bare, hobject, hstart, hstop]
  have hbound : ∀ e e' : Option Expr, Like (Option.map Expr.bare) e e' →
      Like Expr.bareBound e e' := by
    intro e e' he
    cases e <;> cases e' <;> simp_all [Like, Expr.bareBound]
  have hslice : ∀ start start' : Option Expr, Like Expr.bareBound start start' →
      Mirrors (P.rel (n + 1)) (P.rel n) (do
        let _ ← Parser.expect (.symbol .colon)
        let stop ← if ← Parser.check (.symbol .rightBracket) then Pure.pure none
          else Option.some <$> operand .lowest
        let _ ← Parser.expect (.symbol .rightBracket)
        return Expr.slice p.pos object start stop) (do
        let _ ← Parser.expect (.symbol .colon)
        let stop ← if ← Parser.check (.symbol .rightBracket) then Pure.pure none
          else Option.some <$> operand' .lowest
        let _ ← Parser.expect (.symbol .rightBracket)
        return Expr.slice p'.pos object' start' stop) (Like Expr.bare) := by
    intro start start' hstart
    refine (expect rfl).bind fun _ _ _ => (check rfl).bind fun b b' hb => ?_
    obtain rfl : b' = b := hb
    split
    · exact hdone start start' none none hstart rfl
    · exact (some (ho P _ .lowest)).bind fun stop stop' hstop =>
        hdone start start' stop stop' hstart (hbound stop stop' hstop)
  refine (check rfl).bind fun b b' hb => ?_
  obtain rfl : b' = b := hb
  split
  · exact hslice none none rfl
  · refine (some (ho P _ .lowest)).bind fun start start' hstart => ?_
    cases start with
    | none =>
      cases start' with
      | none => exact hslice none none rfl
      | some i' => simp [Like] at hstart
    | some i =>
      cases start' with
      | none => simp [Like] at hstart
      | some i' =>
        have hi : Like Expr.bare i i' := by simpa [Like] using hstart
        refine (check rfl).bind fun b b' hb => ?_
        obtain rfl : b' = b := hb
        split
        · refine (expect rfl).bind fun _ _ _ => .pure ?_
          simp only [Like, Expr.bare, hobject, hi]
        · exact hslice (.some i) (.some i') (hbound _ _ hstart)

omit ho in
theorem memberName :
    Mirrors (P.rel n) (P.rel n) Parser.memberName Parser.memberName (Like Ident.bare) := by
  refine look (fun c c' hc hlike => ?_) fun c hc => ?_
  · rw [Token.kind_of_like hlike]
    have hname : c.kind.isTaken n = true → Lexer.nestingAfter n c.kind = n →
        Mirrors (P.at n c.kind) (P.rel n) (do return identOf (← Parser.advance))
          (do return identOf (← Parser.advance)) (Like Ident.bare) := by
      intro htaken hn
      refine (advance htaken).bind fun _ _ h => ?_
      rw [hn]
      exact .pure (like_identOf h)
    split
    · rename_i hk
      simp only [hk] at hname ⊢
      exact hname rfl rfl
    · rename_i k hk
      simp only [hk] at hname ⊢
      exact hname rfl rfl
    · exact of_fails (fails_unexpected _)
  · rcases Kind.of_not_isSolid hc with hk | hk | hk | hk | hk
    all_goals
      simp only [hk]
      exact fails_unexpected _

/-! Templates -/

theorem hole (pos pos' : Pos) (source : List Char) :
    Mirrors Post Post (Parser.hole operand pos source) (Parser.hole operand' pos' source)
      (Like Expr.bare) := by
  intro s t hst a s' hok
  cases hrun : operand .lowest (State.start (String.ofList (Text.trim source))) with
  | error halt s₁ => cases halt <;> simp only [Parser.hole, hrun] at hok <;> cases hok
  | ok e s₁ =>
    obtain ⟨e', t₁, hrun', he, rfl⟩ := ho .same 0 .lowest _ _ rfl e s₁ hrun
    simp only [Parser.hole, hrun] at hok
    by_cases hend : s₁.atLineEnd = true
    · rw [if_pos hend] at hok
      cases hok
      refine ⟨e', t, ?_, he, hst⟩
      simp only [Parser.hole, hrun', hend, if_true]
      rfl
    · rw [if_neg hend] at hok
      cases hok

theorem templateParts (pos pos' : Pos) (fuel : Nat) (collected cs : List Char) :
    Mirrors Post Post (Parser.templateParts operand pos fuel collected cs)
      (Parser.templateParts operand' pos' fuel collected cs) (Like Part.bareAll) := by
  fun_induction Parser.templateParts operand pos fuel collected cs with
  | case1 fuel collected =>
    simp only [Parser.templateParts]
    exact .pure rfl
  | case2 => exact of_fails fails_outOfFuel
  | case3 fuel collected cs ih => exact ih
  | case4 fuel collected cs ih => exact ih
  | case5 => exact of_fails (fails_failAt _ _)
  | case6 => exact of_fails ((fails_failAt _ _).bind _)
  | case7 fuel collected cs hne source rest hhole _ hblank ih =>
    simp only [Parser.templateParts.eq_5 _ _ _ _ _ hne, hhole]
    rw [if_neg hblank]
    refine (hole ho pos pos' source).bind fun e e' he => ih.bind fun more more' hm => .pure ?_
    have htext : ∀ parts, Part.bareAll (textPart collected ++ parts) =
        textPart collected ++ Part.bareAll parts := by
      intro parts
      unfold textPart
      split <;> rfl
    simp only [Like, htext, Part.bareAll, he, hm]
  | case8 fuel collected c cs hopen hclose hbrace ih =>
    simp only [Parser.templateParts.eq_6 _ _ _ _ _ _ hopen hclose hbrace]
    exact ih

theorem template : Mirrors (P.at n .template) (P.rel n) (Parser.template operand)
    (Parser.template operand') (Like Expr.bare) := by
  refine (advance rfl).bind fun c c' hc => ?_
  rw [Token.literal_of_like hc]
  refine (templateParts ho _ _ _ _ _).bind fun parts parts' hparts => .pure ?_
  simp only [Like, Expr.bare, hparts]

/-! Operands and operators -/

theorem unary {c : Kind} (hc : c.isTaken n = true) (hn : Lexer.nestingAfter n c = n)
    (op : UnaryOp) : Mirrors (P.at n c) (P.rel n) (Parser.unary operand op)
      (Parser.unary operand' op) (Like Expr.bare) := by
  refine (advance hc).bind fun _ _ _ => ?_
  rw [hn]
  refine (ho P n .unary).bind fun e e' he => .pure ?_
  simp only [Like, Expr.bare, he]

omit ho in
theorem name_cases {e e' : Expr} (h : Like Expr.bare e e') :
    (∃ id id', e = .name id ∧ e' = .name id' ∧ Like Ident.bare id id') ∨
      (∀ id, e ≠ .name id) ∧ ∀ id, e' ≠ .name id := by
  by_cases he : ∃ id, e = .name id
  · obtain ⟨id, rfl⟩ := he
    obtain ⟨id', rfl, hid⟩ := Expr.eq_name_of_bare h
    exact .inl ⟨id, id', rfl, rfl, hid⟩
  · refine .inr ⟨fun id hid => he ⟨id, hid⟩, fun id' hid' => he ?_⟩
    subst hid'
    obtain ⟨id, rfl, -⟩ := Expr.eq_name_of_bare (e := e) h.symm
    exact ⟨id, rfl⟩

theorem preStep {c : Kind} (hc : c.isTaken n = true) (hn : Lexer.nestingAfter n c = n)
    (step : Step) : Mirrors (P.at n c) (P.rel n) (Parser.preStep operand step)
      (Parser.preStep operand' step) (Like Expr.bare) := by
  refine (advance hc).bind fun _ _ _ => ?_
  rw [hn]
  refine (ho P n .unary).bind fun e e' he => ?_
  obtain ⟨id, id', rfl, rfl, hid⟩ | ⟨hne, -⟩ := name_cases he
  · refine .pure ?_
    simp only [Like, Expr.bare, hid]
  · refine of_fails ?_
    split
    · exact absurd rfl (hne _)
    · exact fails_failAt _ _

omit ho in
theorem postStep {c : Kind} (hc : c.isTaken n = true) (hn : Lexer.nestingAfter n c = n)
    {left left' : Expr} (hleft : Like Expr.bare left left') (step : Step) :
    Mirrors (P.at n c) (P.rel n) (Parser.postStep left step) (Parser.postStep left' step)
      (Like Expr.bare) := by
  refine (advance hc).bind fun _ _ _ => ?_
  rw [hn]
  obtain ⟨id, id', rfl, rfl, hid⟩ | ⟨hne, -⟩ := name_cases hleft
  · refine .pure ?_
    simp only [Like, Expr.bare, hid]
  · refine of_fails ?_
    split
    · exact absurd rfl (hne _)
    · exact fails_failAt _ _

omit ho in
theorem literal {c : Kind} (hc : c.isTaken n = true) (hn : Lexer.nestingAfter n c = n) :
    Mirrors (P.at n c) (P.rel n) Parser.literal Parser.literal (Like Expr.bare) := by
  refine (advance hc).bind fun t t' ht => ?_
  rw [hn, Token.literal_of_like ht]
  split
  · refine .pure ?_
    simp only [Like, Expr.bare]
  · exact of_fails (fails_failAt _ _)

omit ho in
theorem name {c : Kind} (hc : c.isTaken n = true) (hn : Lexer.nestingAfter n c = n) :
    Mirrors (P.at n c) (P.rel n) (do return Expr.name (identOf (← Parser.advance)))
      (do return Expr.name (identOf (← Parser.advance))) (Like Expr.bare) := by
  refine (advance hc).bind fun _ _ h => ?_
  rw [hn]
  refine .pure ?_
  simp only [Like, Expr.bare, like_identOf h]

theorem operandStart (hfg : f ≤ g) :
    Mirrors (P.rel n) (P.rel n) (Parser.operandStart f operand) (Parser.operandStart g operand')
      (Like Expr.bare) := by
  refine look (fun c c' hc hlike => ?_) fun c hc => ?_
  · rw [Token.kind_of_like hlike]
    split
    case h_22 => exact of_fails (fails_failAt _ _)
    all_goals
      rename_i hk
      simp only [hk]
    · exact name rfl rfl
    · exact name rfl rfl
    · exact literal rfl rfl
    · exact literal rfl rfl
    · exact literal rfl rfl
    · exact literal rfl rfl
    · exact literal rfl rfl
    · refine (advance rfl).bind fun _ _ _ => .pure ?_
      simp only [Like, Expr.bare]
    · exact template ho
    · exact unary ho rfl rfl _
    · exact unary ho rfl rfl _
    · exact unary ho rfl rfl _
    · exact unary ho rfl rfl _
    · exact unary ho rfl rfl _
    · exact preStep ho rfl rfl _
    · exact preStep ho rfl rfl _
    · exact grouping ho hfg
    · refine (advance rfl).bind fun _ _ _ => (sequence ho rfl hfg).bind fun _ _ hes => .pure ?_
      simp only [Like, Expr.bare, hes]
    · refine (advance rfl).bind fun _ _ _ => (entries ho hfg).bind fun _ _ hes => ?_
      refine (expect rfl).bind fun _ _ _ => .pure ?_
      simp only [Like, Expr.bare, hes]
    · refine (advance rfl).bind fun _ _ _ => (expect rfl).bind fun _ _ _ => ?_
      refine memberName.bind fun _ _ hid => .pure ?_
      simp only [Like, Expr.bare, hid]
    · simp [hk, Kind.isSolid] at hc
  · rcases Kind.of_not_isSolid hc with hk | hk | hk | hk | hk
    all_goals simp only [hk]
    · split <;> exact fails_failAt _ _
    all_goals exact fails_failAt _ _

omit ho in
theorem isTaken_of_binaryOp? {k : Kind} {op : BinaryOp} (h : binaryOp? k = Option.some op)
    (n : Nat) : k.isTaken n = true ∧ Lexer.nestingAfter n k = n := by
  unfold binaryOp? at h
  split at h <;> first | exact ⟨rfl, rfl⟩ | cases h

theorem continued (hfg : f ≤ g) {left left' : Expr} (hleft : Like Expr.bare left left') :
    Mirrors (P.rel n) (P.rel n) (Parser.continued f operand left)
      (Parser.continued g operand' left') (Like Expr.bare) := by
  have hbinary : ∀ (pos pos' : Pos) (op : BinaryOp) (level : Level), Mirrors (P.rel n) (P.rel n)
      (do return Expr.binary pos op left (← operand level))
      (do return Expr.binary pos' op left' (← operand' level)) (Like Expr.bare) := by
    intro pos pos' op level
    refine (ho P n level).bind fun right right' hright => .pure ?_
    simp only [Like, Expr.bare, hleft, hright]
  refine look (fun c c' hc hlike => ?_) fun c hc => ?_
  · rw [Token.kind_of_like hlike]
    split
    case h_8 hparen hdot hbracket hincrement hdecrement hnot hpower =>
      split
      · rename_i op hop
        obtain ⟨htaken, hn⟩ := isTaken_of_binaryOp? hop n
        refine (advance htaken).bind fun _ _ _ => ?_
        rw [hn]
        exact hbinary _ _ _ _
      · exact of_fails (fails_failAt _ _)
    all_goals
      rename_i hk
      simp only [hk]
    · refine (advance rfl).bind fun _ _ _ => (sequence ho rfl hfg).bind fun _ _ hes => .pure ?_
      simp only [Like, Expr.bare, hleft, hes]
    · refine (advance rfl).bind fun _ _ _ => memberName.bind fun _ _ hid => .pure ?_
      simp only [Like, Expr.bare, hleft, hid]
    · exact bracketed ho hleft
    · exact postStep rfl rfl hleft _
    · exact postStep rfl rfl hleft _
    · refine (advance rfl).bind fun _ _ _ => (expect rfl).bind fun _ _ _ => ?_
      exact hbinary _ _ _ _
    · exact (advance rfl).bind fun _ _ _ => hbinary _ _ _ _
  · rcases Kind.of_not_isSolid hc with hk | hk | hk | hk | hk
    all_goals
      simp only [hk]
      exact fails_failAt _ _

omit ho in
theorem level : Mirrors (P.rel n) (P.rel n) Parser.level Parser.level (Like id) := by
  have hplain : ∀ s : State, s.cur.kind ≠ .keyword .not_ →
      Parser.level s = .ok (Level.ofKind s.cur.kind) s := by
    intro s hs
    simp only [Parser.level, Parser.cur, Bind.bind, EStateM.bind]
    rfl
  have hnot : ∀ s : State, s.cur.kind = .keyword .not_ → Parser.level s = .ok
      (if ((s.ahead.head?.map (·.kind)) == Option.some (.keyword .in_)) = true then .comparison
        else .lowest) s := by
    intro s hs
    simp only [Parser.level, Parser.cur, Bind.bind, EStateM.bind, hs]
    rfl
  have hlowest : ∀ s : State, s.cur.kind.isSolid = false → Parser.level s = .ok .lowest s := by
    intro s hs
    have hkind := Kind.of_not_isSolid hs
    rw [hplain s (by rintro heq; simp [heq] at hkind)]
    rcases hkind with hk | hk | hk | hk | hk <;> rw [hk] <;> rfl
  intro s t hst a s' hok
  by_cases hsolid : s.cur.kind.isSolid = true
  · have hkind := Token.kind_of_like (P.cur hst (.inl hsolid))
    by_cases hs : s.cur.kind = .keyword .not_
    · rw [hnot s hs] at hok
      cases hok
      exact ⟨_, t, hnot t (hkind.trans hs), by simp only [Like, P.follows hst hs], hst⟩
    · rw [hplain s hs] at hok
      cases hok
      exact ⟨_, t, hplain t (fun ht => hs (hkind.symm.trans ht)), by rw [Like, hkind], hst⟩
  · -- Neither of the two is written out, and both end what stands before.
    have ht : t.cur.kind.isSolid = false := by
      cases ht : t.cur.kind.isSolid with
      | false => rfl
      | true =>
        rw [Token.kind_of_like (P.cur hst (.inr ht))] at ht
        exact absurd ht hsolid
    rw [hlowest s (by simpa using hsolid)] at hok
    cases hok
    exact ⟨.lowest, t, hlowest t ht, rfl, hst⟩

theorem climb (limit : Level) (hfg : f ≤ g) {left left' : Expr}
    (hleft : Like Expr.bare left left') :
    Mirrors (P.rel n) (P.rel n) (Parser.climb operand limit f left)
      (Parser.climb operand' limit g left') (Like Expr.bare) := by
  induction f generalizing g left left' with
  | zero => exact of_fails fails_outOfFuel
  | succ f ih =>
    obtain ⟨g, rfl⟩ := Nat.exists_eq_add_one.2 (Nat.lt_of_lt_of_le (Nat.succ_pos f) hfg)
    have hle := Nat.le_of_succ_le_succ hfg
    refine level.bind fun l l' hl => ?_
    obtain rfl : l' = l := hl
    split
    · exact (continued ho hle hleft).bind fun e e' he => ih hle he
    · exact .pure hleft

end Operands

end Mirrors

theorem operandsMirror_exprAt {f g : Nat} (hfg : f ≤ g) :
    OperandsMirror (exprAt f) (exprAt g) := by
  induction f generalizing g with
  | zero => exact fun _ _ _ => .of_fails fails_outOfFuel
  | succ f ih =>
    intro P n level
    obtain ⟨g, rfl⟩ := Nat.exists_eq_add_one.2 (Nat.lt_of_lt_of_le (Nat.succ_pos f) hfg)
    have hle := Nat.le_of_succ_le_succ hfg
    exact (Mirrors.operandStart (ih hle) hle).bind fun e e' he =>
      Mirrors.climb (ih hle) level hle he

/-! One line in front of different ones -/

def State.view (s : State) : List Token := s.tokens.map Token.bare

section view

variable {s : State} {b : Token} {bs : List Token}

theorem State.cur_of_view (h : s.view = b :: bs) : s.cur.bare = b := (List.cons.inj h).1

theorem State.kind_of_view (h : s.view = b :: bs) : s.cur.kind = b.kind :=
  Token.kind_of_bare (cur_of_view h)

theorem State.head_of_view (h : s.view = b :: bs) :
    s.ahead.head?.map (·.kind) = bs.head?.map (·.kind) := by
  obtain ⟨-, hahead⟩ := List.cons.inj h
  rw [← hahead, List.head?_map, Option.map_map]
  rfl

theorem State.next_view (h : s.view = b :: bs) (hbs : bs ≠ []) : s.next.view = bs := by
  obtain ⟨-, hahead⟩ := List.cons.inj h
  cases hcons : s.ahead with
  | nil =>
    rw [hcons] at hahead
    exact absurd hahead.symm hbs
  | cons t ts => simpa [next, hcons, view, tokens] using hahead

end view

/-- The same line is left, in front of what may be different but is not written out. The tokens of
the line may have a property. -/
def Pairing.line (Q : Token → Prop) (c c' : Token) (more more' : List Token)
    (hc : c.kind.isSolid = false) (hc' : c'.kind.isSolid = false) : Pairing where
  rel _ s t := ∃ line : List Token, (∀ x ∈ line, x.kind.isSolid = true ∧ Q x) ∧
    s.view = line ++ c :: more ∧ t.view = line ++ c' :: more'
  cur := by
    rintro n s t ⟨line, -, hs, ht⟩ h
    cases line with
    | nil => simp [State.kind_of_view hs, State.kind_of_view ht, hc, hc'] at h
    | cons x line => exact (State.cur_of_view ht).trans (State.cur_of_view hs).symm
  follows := by
    rintro n s t ⟨line, -, hs, ht⟩ hnot
    have hne : ∀ k : Kind, k.isSolid = false → k ≠ .keyword .in_ := by
      rintro k hk rfl
      cases hk
    cases line with
    | nil =>
      rw [State.kind_of_view hs] at hnot
      simp [hnot, Kind.isSolid] at hc
    | cons x line =>
      rw [State.head_of_view hs, State.head_of_view ht]
      cases line with
      | nil => simp [hne _ hc, hne _ hc']
      | cons y line => rfl
  take := by
    rintro n s t ⟨line, hline, hs, ht⟩ htaken
    cases line with
    | nil =>
      rw [State.kind_of_view hs] at htaken
      simp [Kind.isSolid_of_isTaken htaken] at hc
    | cons x line =>
      exact ⟨line, fun y hy => hline y (List.mem_cons_of_mem x hy),
        State.next_view hs (by simp), State.next_view ht (by simp)⟩

end Spellbook.Parser
