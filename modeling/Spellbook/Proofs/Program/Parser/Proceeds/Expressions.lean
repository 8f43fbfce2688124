import Spellbook.Proofs.Program.Parser.Proceeds.Basic

/-! Expressions proceed on every text, and are read from it. The fuel is enough if it is above the
weight of the tokens that are left, as each level of nesting and each turn of a loop takes a token,
and the text in a hole of a template weighs less than the template. -/
namespace Spellbook.Parser

open State

section Fuel

variable {ι : Type} {j k : Nat} {f : ι → Nat} {spends : Prop}

/-- The fuels are all greater than `k`, or all the same if they may run out. -/
def Enough (spends : Prop) (k : Nat) (f : ι → Nat) : Prop :=
  (∀ i, k < f i) ∨ spends ∧ ∃ n, ∀ i, f i = n

theorem Enough.mono (h : Enough spends k f) (hle : j ≤ k) : Enough spends j f :=
  h.imp_left fun hlt i => Nat.lt_of_le_of_lt hle (hlt i)

theorem Enough.pred (h : Enough spends (k + 1) f) :
    (spends ∧ f = fun _ => 0) ∨ ∃ g, (f = fun i => g i + 1) ∧ Enough spends k g := by
  obtain hlt | ⟨hs, n, hn⟩ := h
  · refine .inr ⟨fun i => f i - 1, funext fun i => ?_, .inl fun i => Nat.lt_sub_of_add_lt (hlt i)⟩
    exact (Nat.sub_add_cancel (Nat.one_le_of_lt (hlt i))).symm
  · cases n with
    | zero => exact .inl ⟨hs, funext hn⟩
    | succ n => exact .inr ⟨fun _ => n, funext hn, .inr ⟨hs, n, fun _ => rfl⟩⟩

end Fuel

/-- Operands proceed where there are tokens of weight `k` at most, and take at least one. -/
def OperandsProceed {ι : Type} (spends : Prop) (k : Nat) (operand : ι → Operand) : Prop :=
  ∀ text, ∀ j < k, ∀ level s, s.Within text (j + 1) → Proceeds (.level text spends) j
    (fun i => operand i level) s (Made (Expr.ReadFrom text))

theorem OperandsProceed.mono {ι : Type} {spends : Prop} {j k : Nat} {operand : ι → Operand}
    (ho : OperandsProceed spends k operand) (hle : j ≤ k) : OperandsProceed spends j operand :=
  fun text i hi => ho text i (Nat.lt_of_lt_of_le hi hle)

theorem isFlat_of_isSolid {k : Kind} (h : k.isSolid = true) : k.isFlat = true := by
  cases k <;> first | rfl | cases h

theorem length_trim_le (cs : List Char) : (Text.trim cs).length ≤ cs.length := by
  have hfirst := Scan.length_dropWhile_le Text.isBlank cs
  have hlast := Scan.length_dropWhile_le Text.isBlank (cs.dropWhile Text.isBlank).reverse
  simp only [Text.trim, List.length_reverse] at hlast ⊢
  omega

theorem tokens_start (source : String) : (State.start source).tokens = tokensOf source := by
  have hends := endsWithEof_tokensOf source
  cases h : tokensOf source with
  | nil => exact absurd (h ▸ hends) EndsWithEof.not_nil
  | cons t ts => simp [State.start, State.ofTokens, State.tokens, h]

theorem within_start (source : String) :
    (State.start source).Within source (4 * source.length + 3) := by
  have htokens := tokens_start source
  exact ⟨htokens ▸ List.suffix_rfl, htokens ▸ weigh_tokensOf source⟩

theorem within_hole (source : List Char) :
    (State.start (String.ofList (Text.trim source))).Within (String.ofList (Text.trim source))
      (4 * source.length + 3) := by
  have htrim := length_trim_le source
  apply (within_start _).mono
  rw [String.length_ofList]
  omega

namespace Proceeds

variable {ι : Type} {spends : Prop} {text : String} {k : Nat} {s : State} {operand : ι → Operand}
  {f : ι → Nat}

theorem ofOperands (ho : OperandsProceed spends k operand) (level : Level)
    (hs : s.Within text k) : Proceeds (.level text spends) k (fun i => operand i level) s
      (Made (Expr.ReadFrom text)) := by
  obtain ⟨k, rfl⟩ := Nat.exists_eq_add_one.2 hs.pos
  exact (ho text k (Nat.lt_succ_self k) level s hs).mono (Nat.le_succ k)

theorem items (close : Kind) (ho : OperandsProceed spends k operand) (hf : Enough spends k f)
    (hs : s.Within text k) :
    Proceeds (.level text spends) k (fun i => Parser.items (operand i) close (f i)) s
      (Made fun es => ∀ e ∈ es, e.ReadFrom text) := by
  induction k generalizing s f with
  | zero => exact absurd hs.pos (Nat.lt_irrefl 0)
  | succ k ih =>
    obtain ⟨hspends, rfl⟩ | ⟨g, rfl, hg⟩ := hf.pred
    · exact .outOfFuel hspends
    · refine .check ?_
      split
      · exact .pure hs nofun
      · refine (ho text k (Nat.lt_succ_self k) .lowest s hs).bind fun e s' hs' he => ?_
        refine .ifAccepted hs' rfl (fun s'' hs'' => ?_)
          (.pure (hs'.mono (Nat.le_succ k)) (List.forall_mem_singleton.2 he))
        refine (ih (ho.mono (Nat.le_succ k)) hg hs'').bind fun es s₃ hs₃ hes => ?_
        exact .pure (hs₃.mono (Nat.le_succ k)) (List.forall_mem_cons.2 ⟨he, hes⟩)

theorem sequence {close : Kind} (hc : close.isFlat = true) (ho : OperandsProceed spends k operand)
    (hf : Enough spends k f) (hs : s.Within text k) :
    Proceeds (.level text spends) k (fun i => Parser.sequence (f i) (operand i) close) s
      (Made fun es => ∀ e ∈ es, e.ReadFrom text) :=
  (items close ho hf hs).bind fun _ _ hs' hes =>
    (expected trivial hs' hc).bind fun _ _ hs'' _ => .pure hs'' hes

theorem entries (ho : OperandsProceed spends k operand) (hf : Enough spends k f)
    (hs : s.Within text k) :
    Proceeds (.level text spends) k (fun i => Parser.entries (operand i) (f i)) s
      (Made fun es => ∀ e ∈ es.flatMap fun entry => [entry.1, entry.2], e.ReadFrom text) := by
  induction k generalizing s f with
  | zero => exact absurd hs.pos (Nat.lt_irrefl 0)
  | succ k ih =>
    have ho' := ho.mono (Nat.le_succ k)
    obtain ⟨hspends, rfl⟩ | ⟨g, rfl, hg⟩ := hf.pred
    · exact .outOfFuel hspends
    · refine .check ?_
      split
      · exact .pure hs nofun
      · refine (ho text k (Nat.lt_succ_self k) .lowest s hs).bind fun key s₁ hs₁ hkey => ?_
        refine (expected trivial hs₁ rfl).bind fun _ s₂ hs₂ _ => ?_
        refine (ofOperands ho' .lowest hs₂).bind fun v s₃ hs₃ hv => ?_
        have hentry : ∀ es : List (Expr × Expr),
            (∀ e ∈ es.flatMap fun entry => [entry.1, entry.2], e.ReadFrom text) →
            ∀ e ∈ ((key, v) :: es).flatMap fun entry => [entry.1, entry.2], e.ReadFrom text :=
          fun _ hes => List.forall_mem_cons.2 ⟨hkey, List.forall_mem_cons.2 ⟨hv, hes⟩⟩
        refine .ifAccepted hs₃ rfl (fun s₄ hs₄ => ?_)
          (.pure (hs₃.mono (Nat.le_succ k)) (hentry [] nofun))
        refine (ih ho' hg hs₄).bind fun es s₅ hs₅ hes => ?_
        exact .pure (hs₅.mono (Nat.le_succ k)) (hentry es hes)

theorem grouping (ho : OperandsProceed spends k operand) (hf : Enough spends k f)
    (hs : s.Within text (k + 1)) (hcur : s.cur.kind = .symbol .leftParen) :
    Proceeds (.level text spends) k (fun i => Parser.grouping (f i) (operand i)) s
      (Made (Expr.ReadFrom text)) := by
  refine (advance hs (hcur ▸ rfl)).bind fun paren s₁ hs₁ hparen => ?_
  subst hparen
  have htuple : ∀ es : List Expr, (∀ e ∈ es, e.ReadFrom text) →
      (Expr.tuple s.cur.pos es).ReadFrom text :=
    fun es hes => .one trivial rfl (hs.cur.hasToken hcur rfl (.inl hcur)) rfl hes
  refine .ifAccepted hs₁ rfl (fun s₂ hs₂ => .pure hs₂ (htuple [] nofun)) ?_
  refine (ofOperands ho .lowest hs₁).bind fun first s₂ hs₂ hfirst => ?_
  refine .ifAccepted hs₂ rfl (fun s₃ hs₃ => ?_) ?_
  · exact (sequence rfl ho hf hs₃).bind fun more _ hs₄ hmore =>
      .pure hs₄ (htuple _ (List.forall_mem_cons.2 ⟨hfirst, hmore⟩))
  · exact (expected trivial hs₂ rfl).bind fun _ _ hs₃ _ => .pure hs₃ hfirst

theorem bracketed (ho : OperandsProceed spends k operand) (hs : s.Within text (k + 1))
    (hcur : s.cur.kind = .symbol .leftBracket) {object : Expr} (hobject : object.ReadFrom text) :
    Proceeds (.level text spends) k (fun i => Parser.bracketed (operand i) object) s
      (Made (Expr.ReadFrom text)) := by
  refine (advance hs (hcur ▸ rfl)).bind fun bracket s₁ hs₁ hbracket => ?_
  subst hbracket
  have hmark : HasToken text (Kind.mark (.symbol .leftBracket) s.cur.pos) := hs.cur.mark hcur rfl
  have hnone : ∀ e ∈ (none : Option Expr), e.ReadFrom text :=
    fun e he => absurd he (Option.not_mem_none e)
  have hdone : ∀ start stop : Option Expr, (∀ e ∈ start, e.ReadFrom text) →
      (∀ e ∈ stop, e.ReadFrom text) → ∀ s', s'.Within text k →
      Proceeds (.level text spends) k (fun _ : ι => do
        let _ ← Parser.expect (.symbol .rightBracket)
        return Expr.slice s.cur.pos object start stop) s' (Made (Expr.ReadFrom text)) := by
    intro start stop hstart hstop s' hs'
    refine (expected trivial hs' rfl).bind fun _ _ hs'' _ =>
      .pure hs'' (.one trivial rfl hmark rfl ?_)
    simp only [Expr.parts, List.mem_cons, List.mem_append, Option.mem_toList]
    rintro e (rfl | he | he)
    · exact hobject
    · exact hstart e he
    · exact hstop e he
  have hslice : ∀ start : Option Expr, (∀ e ∈ start, e.ReadFrom text) → ∀ s', s'.Within text k →
      Proceeds (.level text spends) k (fun i => do
        let _ ← Parser.expect (.symbol .colon)
        let stop ← if ← Parser.check (.symbol .rightBracket) then Pure.pure none
          else Option.some <$> operand i .lowest
        let _ ← Parser.expect (.symbol .rightBracket)
        return Expr.slice s.cur.pos object start stop) s' (Made (Expr.ReadFrom text)) := by
    intro start hstart s' hs'
    refine (expected trivial hs' rfl).bind fun _ s₂ hs₂ _ => .check ?_
    split
    · exact hdone start none hstart hnone s₂ hs₂
    · exact (some (ofOperands ho .lowest hs₂)).bind fun stop s₃ hs₃ hstop =>
        hdone start stop hstart hstop s₃ hs₃
  refine .check ?_
  split
  · exact hslice none hnone s₁ hs₁
  · refine (some (ofOperands ho .lowest hs₁)).bind fun start s₂ hs₂ hstart => ?_
    cases start with
    | none => exact hslice none hnone s₂ hs₂
    | some i =>
      refine .check ?_
      split
      · refine (expected trivial hs₂ rfl).bind fun _ _ hs₃ _ =>
          .pure hs₃ (.one trivial rfl hmark rfl ?_)
        exact List.forall_mem_cons.2 ⟨hobject, List.forall_mem_singleton.2 (hstart i rfl)⟩
      · exact hslice (.some i) hstart s₂ hs₂

theorem memberName (hs : s.Within text k) :
    Proceeds (.level text spends) k (fun _ : ι => Parser.memberName) s
      (Made fun id => Scan.IsWord id.name.toList ∧ HasToken text id.mark) := by
  obtain ⟨k, rfl⟩ := Nat.exists_eq_add_one.2 hs.pos
  have hname : ∀ c, s.cur.kind = c → c.isSolid = true → Scan.IsWord s.cur.lexeme.toList →
      Proceeds (.level text spends) (k + 1) (fun _ : ι => do return identOf (← Parser.advance)) s
        (Made fun id => Scan.IsWord id.name.toList ∧ HasToken text id.mark) := by
    intro c hc hsolid hword
    refine (advance hs (hc ▸ isFlat_of_isSolid hsolid)).bind fun t _ hs' ht => ?_
    subst ht
    exact .pure (hs'.mono (Nat.le_succ k)) ⟨hword, hs.cur.ident_mark hc hsolid⟩
  refine .look ?_
  split
  · rename_i hk
    exact hname _ hk rfl (hs.cur.ident hk).1
  · rename_i word hk
    exact hname _ hk rfl (hs.cur.keyword word hk).1
  · exact .unexpected trivial _

/-! Templates -/

theorem hole (pos : Pos) {source : List Char} (ho : OperandsProceed spends k operand)
    (hsource : 4 * source.length + 2 < k) (hs : s.Within text k) :
    Proceeds (.level text spends) k (fun i => Parser.hole (operand i) pos source) s
      (Made (Expr.ReadFrom (String.ofList (Text.trim source)))) := by
  obtain ⟨r, hr, hallowed⟩ := ho _ _ hsource .lowest _ (within_hole source)
  have hsame : (fun i => Parser.hole (operand i) pos source) =
      fun _ => Parser.hole (fun _ _ => r) pos source := by
    funext i
    simp only [Parser.hole, hr i (.inl trivial)]
  rw [hsame]
  match r, hallowed with
  | .ok e s', hallowed =>
    simp only [Parser.hole]
    split
    · exact .pure hs hallowed.2.2
    · exact .failAt trivial _ nofun
  | .error (.complaint _) _, _ => exact .failAt trivial _ nofun
  | .error .outOfFuel _, hspends => exact .outOfFuel hspends

/-- Each hole of the parts is one of the characters, and is read from what stands in it. -/
def HolesOf (cs : List Char) (parts : List Part) : Prop :=
  ∀ e ∈ parts.filterMap Part.hole?, ∃ hole, '\x7b' :: hole ++ ['\x7d'] <:+: cs ∧
    e.ReadFrom (String.ofList (Text.trim hole))

theorem HolesOf.later {cs : List Char} {parts : List Part} (h : HolesOf cs parts)
    (before : List Char) : HolesOf (before ++ cs) parts := by
  intro e he
  obtain ⟨hole, hinfix, hread⟩ := h e he
  exact ⟨hole, hinfix.trans (List.suffix_append before cs).isInfix, hread⟩

theorem holes_textPart (collected : List Char) :
    (textPart collected).filterMap Part.hole? = [] := by
  unfold textPart
  split <;> rfl

theorem templateParts (pos : Pos) (ho : OperandsProceed spends k operand) (hs : s.Within text k)
    {fuel : Nat} (collected : List Char) {cs : List Char} (hfuel : cs.length ≤ fuel)
    (hcs : 4 * cs.length ≤ k) :
    Proceeds (.level text spends) k
      (fun i => Parser.templateParts (operand i) pos fuel collected cs) s (Made (HolesOf cs)) := by
  induction fuel, collected, cs using
    Parser.templateParts.induct (fun _ => Parser.outOfFuel) pos generalizing s with
  | case1 fuel collected =>
    simp only [Parser.templateParts]
    refine .pure hs fun e he => ?_
    rw [holes_textPart] at he
    cases he
  | case2 collected cs hne =>
    cases cs with
    | nil => exact absurd rfl hne
    | cons c cs => exact absurd hfuel (Nat.not_succ_le_zero _)
  | case3 fuel collected cs ih =>
    simp only [List.length_cons] at hcs hfuel
    exact (ih hs (by omega) (by omega)).imp (Nat.le_refl k) fun _ _ _ h => h.later ['\x7b', '\x7b']
  | case4 fuel collected cs ih =>
    simp only [List.length_cons] at hcs hfuel
    exact (ih hs (by omega) (by omega)).imp (Nat.le_refl k) fun _ _ _ h => h.later ['\x7d', '\x7d']
  | case5 fuel collected cs hne hhole =>
    simp only [Parser.templateParts.eq_5 _ _ _ _ _ hne, hhole]
    exact .failAt trivial _ nofun
  | case6 fuel collected cs hne source rest hhole hblank =>
    simp only [Parser.templateParts.eq_5 _ _ _ _ _ hne, hhole, hblank, if_true]
    exact .stuck trivial (fun _ => rfl) nofun
  | case7 fuel collected cs hne source rest hhole hblank ih =>
    have hcut := eq_of_holeText hhole
    have hlength := congrArg List.length hcut
    simp only [List.length_append, List.length_cons] at hcs hlength hfuel
    simp only [Parser.templateParts.eq_5 _ _ _ _ _ hne, hhole, hblank]
    refine (hole pos ho (by omega) hs).bind fun e s' hs' he => ?_
    refine (ih hs' (by omega) (by omega)).bind fun more s'' hs'' hmore => .pure hs'' ?_
    intro e' he'
    rw [List.filterMap_append, holes_textPart] at he'
    obtain rfl | he' := List.mem_cons.1 he'
    · exact ⟨source, ⟨[], rest, by simp [hcut]⟩, he⟩
    · simpa [hcut] using hmore.later ('\x7b' :: source ++ ['\x7d']) e' he'
  | case8 fuel collected c cs hopen hclose hbrace ih =>
    simp only [Parser.templateParts.eq_6 _ _ _ _ _ _ hopen hclose hbrace]
    simp only [List.length_cons] at hcs hfuel
    exact (ih hs (by omega) (by omega)).imp (Nat.le_refl k) fun _ _ _ h => h.later [c]

theorem template (ho : OperandsProceed spends k operand) (hs : s.Within text (k + 1))
    (hcur : s.cur.kind = .template) :
    Proceeds (.level text spends) k (fun i => Parser.template (operand i)) s
      (Made (Expr.ReadFrom text)) := by
  have hcontent : 4 * s.cur.content.length ≤ k := by
    have hweight := hs.weight
    simp only [State.tokens, weigh_cons, Token.weight, hcur, if_true] at hweight
    omega
  refine (advance hs (hcur ▸ rfl)).bind fun token s' hs' htoken => ?_
  subst htoken
  refine (templateParts _ ho hs' _ (Nat.le_refl _) hcontent).bind fun parts s'' hs'' hparts =>
    .pure hs'' (.of_parts trivial (List.forall_mem_singleton.2 (hs.cur.mark hcur rfl)) ?_)
  intro e he
  obtain ⟨hole, hinfix, hread⟩ := hparts e he
  refine ⟨_, ⟨s.cur, hs.cur.found, hcur, rfl, hole, ?_, rfl⟩, hread⟩
  unfold Token.content at hinfix
  split at hinfix
  · rename_i content hcontent
    exact ⟨content, hcontent, hinfix⟩
  · simp at hinfix

/-! Operands and operators -/

theorem unary {op : UnaryOp} (ho : OperandsProceed spends k operand) (hs : s.Within text (k + 1))
    (hcur : s.cur.kind = op.kind) :
    Proceeds (.level text spends) k (fun i => Parser.unary (operand i) op) s
      (Made (Expr.ReadFrom text)) := by
  have hsolid : op.kind.isSolid = true := by cases op <;> rfl
  refine (advance hs (hcur ▸ isFlat_of_isSolid hsolid)).bind fun token _ hs' htoken => ?_
  subst htoken
  refine (ofOperands ho .unary hs').bind fun e _ hs'' he => .pure hs'' ?_
  exact .one trivial rfl (hs.cur.mark hcur hsolid) rfl (List.forall_mem_singleton.2 he)

theorem isSolid_step (step : Step) : step.kind.isSolid = true := by
  cases step <;> rfl

theorem preStep {step : Step} (ho : OperandsProceed spends k operand)
    (hs : s.Within text (k + 1)) (hcur : s.cur.kind = step.kind) :
    Proceeds (.level text spends) k (fun i => Parser.preStep (operand i) step) s
      (Made (Expr.ReadFrom text)) := by
  have hmark := hs.cur.mark hcur (isSolid_step step)
  have hflat := isFlat_of_isSolid (isSolid_step step)
  refine (advance hs (hcur ▸ hflat)).bind fun token _ hs' htoken => ?_
  subst htoken
  refine (ofOperands ho .unary hs').bind fun e _ hs'' he => ?_
  split
  · exact .pure hs'' (.plain he.proper (List.forall_mem_cons.2 ⟨hmark, he.marked⟩) rfl nofun)
  · exact .failAt trivial _ nofun

theorem postStep {step : Step} (hs : s.Within text (k + 1)) (hcur : s.cur.kind = step.kind)
    {left : Expr} (hleft : left.ReadFrom text) :
    Proceeds (.level text spends) k (fun _ : ι => Parser.postStep left step) s
      (Made (Expr.ReadFrom text)) := by
  have hmark := hs.cur.mark hcur (isSolid_step step)
  have hflat := isFlat_of_isSolid (isSolid_step step)
  refine (advance hs (hcur ▸ hflat)).bind fun token _ hs' htoken => ?_
  subst htoken
  split
  · exact .pure hs' (.plain hleft.proper (List.forall_mem_cons.2 ⟨hmark, hleft.marked⟩) rfl nofun)
  · exact .failAt trivial _ nofun

theorem literal {c : Kind} (hs : s.Within text (k + 1)) (hcur : s.cur.kind = c)
    (hc : c.isSolid = true) :
    Proceeds (.level text spends) k (fun _ : ι => Parser.literal) s
      (Made (Expr.ReadFrom text)) := by
  refine (advance hs (hcur ▸ isFlat_of_isSolid hc)).bind fun token _ hs' htoken => ?_
  subst htoken
  split
  · rename_i v hv
    refine .pure hs' (.one ?_ rfl (hs.cur.hasToken hcur hc (.inl hv)) rfl nofun)
    cases v with
    | int n => exact hs.cur.int n hv
    | none | float | str | bool => trivial
  · exact .failAt trivial _ nofun

theorem name (hs : s.Within text (k + 1))
    (hcur : s.cur.kind = .ident ∨ s.cur.kind = .keyword .self) :
    Proceeds (.level text spends) k
      (fun _ : ι => do return Expr.name (identOf (← Parser.advance))) s
      (Made (Expr.ReadFrom text)) := by
  have hflat : s.cur.kind.isFlat = true := by obtain h | h := hcur <;> rw [h] <;> rfl
  refine (advance hs hflat).bind fun t _ hs' ht => .pure hs' ?_
  subst ht
  refine .one (hs.cur.isVariable hcur) rfl ?_ rfl nofun
  obtain h | h := hcur
  · exact hs.cur.ident_mark h rfl
  · exact hs.cur.ident_mark h rfl

theorem operandStart (ho : OperandsProceed spends k operand) (hf : Enough spends k f)
    (hs : s.Within text (k + 1)) :
    Proceeds (.level text spends) k (fun i => Parser.operandStart (f i) (operand i)) s
      (Made (Expr.ReadFrom text)) := by
  have htake : ∀ c, s.cur.kind = c → c.isFlat = true →
      Proceeds (.level text spends) k (fun _ : ι => Parser.advance) s fun t _ => t = s.cur :=
    fun c hc hflat => advance hs (hc ▸ hflat)
  refine .look ?_
  split
  · exact name hs (.inl ‹_›)
  · exact name hs (.inr ‹_›)
  · exact literal hs ‹_› rfl
  · exact literal hs ‹_› rfl
  · exact literal hs ‹_› rfl
  · exact literal hs ‹_› rfl
  · exact literal hs ‹_› rfl
  · rename_i hk
    refine (htake _ hk rfl).bind fun _ _ hs' ht => .pure hs' ?_
    exact .one trivial rfl (ht ▸ hs.cur.hasToken hk rfl (.inr ⟨rfl, hk⟩)) rfl nofun
  · exact template ho hs ‹_›
  · exact unary ho hs ‹_›
  · exact unary ho hs ‹_›
  · exact unary ho hs ‹_›
  · exact unary ho hs ‹_›
  · exact unary ho hs ‹_›
  · exact preStep ho hs ‹_›
  · exact preStep ho hs ‹_›
  · exact grouping ho hf hs ‹_›
  · rename_i hk
    refine (htake _ hk rfl).bind fun _ _ hs' ht => ?_
    refine (sequence rfl ho hf hs').bind fun _ _ hs'' hes => .pure hs'' ?_
    exact .one trivial rfl (ht ▸ hs.cur.mark hk rfl) rfl hes
  · rename_i hk
    refine (htake _ hk rfl).bind fun _ _ hs' ht => (entries ho hf hs').bind fun _ _ hs'' hes => ?_
    refine (expected trivial hs'' rfl).bind fun _ _ hs₃ _ => .pure hs₃ ?_
    exact .one trivial rfl (ht ▸ hs.cur.mark hk rfl) rfl hes
  · rename_i hk
    refine (htake _ hk rfl).bind fun _ _ hs' ht => ?_
    refine (expected trivial hs' rfl).bind fun _ _ hs'' _ => ?_
    refine (memberName hs'').bind fun _ _ hs₃ hid => .pure hs₃ (.plain hid.1 ?_ rfl nofun)
    exact List.forall_mem_cons.2 ⟨ht ▸ hs.cur.mark hk rfl, List.forall_mem_singleton.2 hid.2⟩
  · rename_i hk
    obtain ⟨reason, hreason⟩ := hs.cur.explained hk
    simp only [hreason]
    exact .complains trivial (hs.cur.quoted hk hreason) fun _ => rfl
  · exact .failAt trivial _ nofun

theorem continued (ho : OperandsProceed spends k operand) (hf : Enough spends k f)
    (hs : s.Within text (k + 1)) {left : Expr} (hleft : left.ReadFrom text) :
    Proceeds (.level text spends) k (fun i => Parser.continued (f i) (operand i) left) s
      (Made (Expr.ReadFrom text)) := by
  have htake : ∀ c, s.cur.kind = c → c.isFlat = true →
      Proceeds (.level text spends) k (fun _ : ι => Parser.advance) s fun t _ => t = s.cur :=
    fun c hc hflat => advance hs (hc ▸ hflat)
  have hbinary : ∀ (pos : Pos) (op : BinaryOp) (level : Level), HasToken text (op.kind.mark pos) →
      ∀ s', s'.Within text k → Proceeds (.level text spends) k
        (fun i => do return Expr.binary pos op left (← operand i level)) s'
        (Made (Expr.ReadFrom text)) := by
    intro pos op level hmark s' hs'
    refine (ofOperands ho level hs').bind fun right _ hs'' hright =>
      .pure hs'' (.one trivial rfl hmark rfl ?_)
    exact List.forall_mem_cons.2 ⟨hleft, List.forall_mem_singleton.2 hright⟩
  refine .look ?_
  split
  · rename_i hk
    refine (htake _ hk rfl).bind fun _ _ hs' ht => ?_
    refine (sequence rfl ho hf hs').bind fun _ _ hs'' hes => .pure hs'' ?_
    exact .one trivial rfl (ht ▸ hs.cur.mark hk rfl) rfl (List.forall_mem_cons.2 ⟨hleft, hes⟩)
  · refine (htake _ ‹_› rfl).bind fun _ _ hs' _ => (memberName hs').bind fun _ _ hs'' hid => ?_
    exact .pure hs'' (.one hid.1 rfl hid.2 rfl (List.forall_mem_singleton.2 hleft))
  · exact bracketed ho hs ‹_› hleft
  · exact postStep hs ‹_› hleft
  · exact postStep hs ‹_› hleft
  · rename_i hk
    have hmark : HasToken text _ := hs.cur.mark hk rfl
    refine (htake _ hk rfl).bind fun _ _ hs' _ => ?_
    exact (expected trivial hs' rfl).bind fun _ s'' hs'' _ =>
      hbinary _ (.operator .notIn) _ hmark s'' hs''
  · rename_i hk
    have hmark : HasToken text _ := hs.cur.mark hk rfl
    exact (htake _ hk rfl).bind fun _ s' hs' _ => hbinary _ (.operator .pow) _ hmark s' hs'
  · split
    · rename_i op hop
      have hk := eq_of_binaryOp? hop
      have hmark := hs.cur.mark hk (isSolid_kind op)
      exact (htake _ hk (isFlat_of_isSolid (isSolid_kind op))).bind fun _ s' hs' _ =>
        hbinary _ _ _ hmark s' hs'
    · exact .failAt trivial _ nofun

theorem level (hs : s.Within text k) :
    Proceeds (.level text spends) k (fun _ : ι => Parser.level) s Free := by
  refine .look ?_
  split
  · exact .follows (.pure hs trivial)
  · exact .pure hs trivial

theorem climb (limit : Level) (ho : OperandsProceed spends k operand) (hf : Enough spends k f)
    (hs : s.Within text k) {left : Expr} (hleft : left.ReadFrom text) :
    Proceeds (.level text spends) k (fun i => Parser.climb (operand i) limit (f i) left) s
      (Made (Expr.ReadFrom text)) := by
  induction k generalizing s f left with
  | zero => exact absurd hs.pos (Nat.lt_irrefl 0)
  | succ k ih =>
    have ho' := ho.mono (Nat.le_succ k)
    obtain ⟨hspends, rfl⟩ | ⟨g, rfl, hg⟩ := hf.pred
    · exact .outOfFuel hspends
    · refine (level hs).bind fun l s₁ hs₁ _ => ?_
      split
      · refine (continued ho' hg hs₁ hleft).bind fun e s₂ hs₂ he => ?_
        exact (ih ho' hg hs₂ he).mono (Nat.le_succ k)
      · exact .pure hs₁ hleft

end Proceeds

theorem operandsProceed_exprAt {ι : Type} {spends : Prop} {k : Nat} {f : ι → Nat}
    (hf : Enough spends k f) : OperandsProceed spends k fun i => exprAt (f i) := by
  induction k generalizing f with
  | zero => exact fun _ j hj => absurd hj (Nat.not_lt_zero j)
  | succ k ih =>
    intro text j hj limit s hs
    obtain ⟨hspends, rfl⟩ | ⟨g, rfl, hg⟩ := hf.pred
    · exact .outOfFuel hspends
    · have hle : j ≤ k := Nat.le_of_lt_succ hj
      have ho := (ih hg).mono hle
      refine (Proceeds.operandStart ho (hg.mono hle) hs).bind fun left s' hs' hleft => ?_
      exact .climb limit ho (hg.mono hle) hs' hleft

end Spellbook.Parser
