import Spellbook.Proofs.Program.Parser.Mirrors.Basic
import Spellbook.Proofs.Program.Parser.Walks.Blocks

/-! Statements walk, whatever their kind, and their bodies are where the statement says. There is one
theorem for each function of the parser that reads bodies. The others take tokens of a line only. -/
namespace Spellbook.Parser

open State

variable {source : String} {fuel k : Nat} {s₀ s s' : State} {P : Prop}

/-! Parts within a line -/

theorem enough_one (k n : Nat) : Enough True k fun _ : Unit => n :=
  .inr ⟨trivial, n, fun _ => rfl⟩

theorem exprsProceed_parts (k fuel : Nat) :
    ExprsProceed source True k fun _ : Unit => partsWith fuel :=
  exprsProceed_exprAt (enough_one _ fuel) fun _ => stmt fuel

/-! Parts with reports -/

/-- Whatever is reported, there is a result, and no token is taken. -/
def Tells {α : Type} (x : Parse α) (R : α → Prop) : Prop :=
  ∀ s, ∃ a s', x s = .ok a s' ∧ (s'.tokens = s.tokens ∧ s.found <:+ s'.found) ∧ R a

namespace Tells

variable {α β : Type} {R : α → Prop} {R' : β → Prop}

theorem pure {a : α} (ha : R a) : Tells (Pure.pure a) R :=
  fun s => ⟨a, s, rfl, ⟨rfl, List.suffix_rfl⟩, ha⟩

theorem bind {x : Parse α} {f : α → Parse β} (hx : Tells x R) (hf : ∀ a, R a → Tells (f a) R') :
    Tells (x >>= f) R' := by
  intro s
  obtain ⟨a, s₁, hrun, ⟨htokens, hfound⟩, ha⟩ := hx s
  obtain ⟨b, s₂, hrun', ⟨htokens', hfound'⟩, hb⟩ := hf a ha s₁
  exact ⟨b, s₂, bind_eq_ok.2 ⟨a, s₁, hrun, hrun'⟩, ⟨htokens'.trans htokens, hfound.trans hfound'⟩,
    hb⟩

theorem report (d : Diagnostic) : Tells (Parser.report d) fun _ => True :=
  fun _ => ⟨_, _, rfl, ⟨rfl, List.suffix_cons _ _⟩, trivial⟩

theorem reports (xs : List α) {f : α → PUnit → Parse (ForInStep PUnit)}
    (hf : ∀ x u, Tells (f x u) fun r => r = .yield .unit) :
    Tells (forIn xs PUnit.unit f) fun _ => True := by
  induction xs with
  | nil => exact pure trivial
  | cons x xs ih =>
    rw [List.forIn_cons]
    refine (hf x _).bind fun r hr => ?_
    subst hr
    exact ih

theorem grimoireOf (name : Ident) (parent : Option Ident) (arcane : Bool) (body : List Stmt) :
    Tells (Parser.grimoireOf name parent arcane body) fun g =>
      ∀ decl ∈ g.init.toList ++ g.methods, Stmt.spell decl ∈ body := by
  refine (reports _ fun m u => ?_).bind fun _ _ => pure fun decl hdecl => ?_
  · split
    · exact (report _).bind fun _ _ => pure rfl
    · exact pure rfl
  · exact spell_mem_of_members hdecl

end Tells

/-! Bodies of statements -/

theorem Attached.outward {stands : State → Stmt → Prop} {body : List Stmt} {t : Token}
    {ts : List Token} (hleads : s₀.Leads s) (heven : s₀.Even s) (hcur : s.cur.kind = .indent)
    (hahead : s.ahead = t :: ts) (h : Attached fuel stands 0 ⟨t, ts, s.found⟩ body) :
    Attached fuel stands 1 s₀ body := by
  obtain ⟨u, all, u', hinside, hlevels, hbody⟩ := h
  have htokens := tokens_cons hahead
  have hfirst : s.Leads ⟨t, ts, s.found⟩ := ⟨⟨[s.cur], htokens.symm⟩, List.suffix_rfl⟩
  refine ⟨u, all, u', (hleads.trans hfirst).trans hinside, ?_, hbody⟩
  rw [(hleads.trans hfirst).taken_trans hinside, hleads.taken_trans hfirst, taken_eq htokens]
  exact (heven.append ((levels_indent hcur).2 (.nil 1))).append (hlevels.lift 1)

theorem HasBodies.single {a : Stmt} {body : List Stmt} (ha : a.bodies = [body]) (hin : inset a = 0)
    (hbody : body ≠ [] → Attached fuel (Stands fuel) 0 s body) : HasBodies fuel s a := by
  intro b hb hne
  rw [ha] at hb
  obtain rfl := List.mem_singleton.1 hb
  rw [hin]
  exact hbody hne

namespace Walks

section Line

variable (hs₀ : s₀.tokens <:+ tokensOf source) (h : Reaches source s₀ P s)

include hs₀ h

theorem advance (hcur : s.cur.kind.isFlat = true) :
    Walks source s₀ (fun _ => P) Parser.advance s :=
  level h (.advance ((h.within hs₀).mono (Nat.le_succ _)) hcur) fun _ _ hP _ => hP

theorem accept {c : Kind} (hc : c.isFlat = true) :
    Walks source s₀ (fun _ => P) (Parser.accept c) s :=
  free h (.accept (h.within hs₀) hc)

theorem expect {c : Kind} (hc : c.isFlat = true) :
    Walks source s₀ (fun _ => P) (Parser.expect c) s :=
  free h (.expected trivial (h.within hs₀) hc)

theorem ident : Walks source s₀ (fun _ => P) Parser.ident s :=
  free h (.named trivial (h.within hs₀))

theorem binder : Walks source s₀ (fun _ => P) Parser.binder s :=
  free h (.binder trivial (h.within hs₀))

theorem endStatement : Walks source s₀ (fun _ => P) Parser.endStatement s :=
  free h (.endStatement trivial (h.within hs₀))

theorem skipNewlines (n : Nat) : Walks source s₀ (fun _ => P) (Parser.skipNewlines n) s :=
  free h (.skipNewlines (enough_one _ n) (h.within hs₀))

theorem expr : Walks source s₀ (fun _ => P) (partsWith fuel).expr s :=
  free h (.expr trivial (exprsProceed_parts _ fuel) (h.within hs₀))

theorem params (n count : Nat) :
    Walks source s₀ (fun _ => P) (Parser.params (partsWith fuel).expr n count) s :=
  free h (.params trivial (exprsProceed_parts _ fuel) (enough_one _ n) (h.within hs₀) count)

theorem pattern : Walks source s₀ (fun _ => P) (Parser.pattern (partsWith fuel)) s :=
  free h (.pattern trivial (exprsProceed_parts _ fuel) (h.within hs₀))

end Line

theorem plain {x : Parse Stmt}
    (hx : Proceeds (.level source True) k (fun _ : Unit => x) s₀ (Bodiless source)) :
    Walks source s₀ (HasBodies fuel s₀) x s₀ := by
  refine level (.refl source s₀) hx fun a s' _ ha body hbody => ?_
  rw [ha.1] at hbody
  cases hbody

/-! Bodies -/

section Bodies

variable (hset : Setting source fuel s₀)

include hset

theorem blockAfter (h : Reaches source s₀ P s) (word : Keyword) :
    Walks source s₀ (fun body => P ∧ ∀ b ∈ body, Attached fuel (Stands fuel) 0 s₀ b)
      (Parser.blockAfter (partsWith fuel) word) s := by
  refine (accept hset.suffix h rfl).bind fun b s₁ h₁ => ?_
  split
  · refine (block hset h₁).map fun body hbody => ⟨hbody.1, fun b hb => ?_⟩
    cases hb
    exact hbody.2
  · exact .pure h₁ fun hP => ⟨hP, nofun⟩

theorem spell (h : Reaches source s₀ P s) (arcane : Bool) :
    Walks source s₀ (fun decl => P ∧
        (decl.body ≠ [] → Attached fuel (Stands fuel) 0 s₀ decl.body))
      (Parser.spell (partsWith fuel) arcane) s := by
  refine (accept hset.suffix h rfl).bind fun _ s₁ h₁ => .look ?_
  have hrest : ∀ name s', Reaches source s₀ P s' → Walks source s₀ (fun decl => P ∧
      (decl.body ≠ [] → Attached fuel (Stands fuel) 0 s₀ decl.body)) (do
        let _ ← Parser.expect (.symbol .leftParen)
        let params ← Parser.params (partsWith fuel).expr (partsWith fuel).fuel 0
        let _ ← Parser.expect (.symbol .rightParen)
        if arcane && !(← Parser.check (.symbol .colon)) then
          Parser.endStatement
          return (⟨name, params, [], arcane⟩ : SpellDecl)
        return ⟨name, params, ← Parser.block (partsWith fuel), arcane⟩) s' := by
    intro name s' h'
    refine (expect hset.suffix h' rfl).bind fun _ s₂ h₂ => ?_
    refine (params hset.suffix h₂ _ 0).bind fun _ s₃ h₃ => ?_
    refine (expect hset.suffix h₃ rfl).bind fun _ s₄ h₄ => .check ?_
    split
    · exact (endStatement hset.suffix h₄).bind fun _ s₅ h₅ =>
        .pure h₅ fun hP => ⟨hP, fun hne => absurd rfl hne⟩
    · exact (block hset h₄).bind fun body s₅ h₅ => .pure h₅ fun hP => ⟨hP.1, fun _ => hP.2⟩
  have hname : s₁.cur.kind.isFlat = true →
      Walks source s₀ (fun _ => P) (identOf <$> Parser.advance) s₁ :=
    fun hcur => (advance hset.suffix h₁ hcur).map fun _ => id
  split
  · refine (hname (by simp [‹s₁.cur.kind = _›, Kind.isFlat])).bind fun name s₂ h₂ => ?_
    exact hrest name s₂ h₂
  · refine (hname (by simp [‹s₁.cur.kind = _›, Kind.isFlat])).bind fun name s₂ h₂ => ?_
    exact hrest name s₂ h₂
  · exact .stuck h₁ rfl

theorem branches (h : Reaches source s₀ P s) (n : Nat) :
    Walks source s₀ (fun more => P ∧ ∀ b ∈ more, Attached fuel (Stands fuel) 0 s₀ b.2)
      (Parser.branches (partsWith fuel) n) s := by
  induction n generalizing P s with
  | zero => exact .outOfFuel
  | succ n ih =>
    refine (accept hset.suffix h rfl).bind fun b s₁ h₁ => ?_
    split
    · refine (expr hset.suffix h₁).bind fun condition s₂ h₂ => ?_
      refine (block hset h₂).bind fun body s₃ h₃ => (ih h₃).bind fun more s₄ h₄ => .pure h₄ ?_
      rintro ⟨⟨hP, hbody⟩, hmore⟩
      exact ⟨hP, List.forall_mem_cons.2 ⟨hbody, hmore⟩⟩
    · exact .pure h₁ fun hP => ⟨hP, List.forall_mem_nil _⟩

theorem conditional (hcur : s₀.cur.kind.isFlat = true) :
    Walks source s₀ (HasBodies fuel s₀) (Parser.conditional (partsWith fuel)) s₀ := by
  refine (advance hset.suffix (.refl source s₀) hcur).bind fun word s₁ h₁ => ?_
  refine (expr hset.suffix h₁).bind fun condition s₂ h₂ => ?_
  refine (block hset h₂).bind fun body s₃ h₃ => (branches hset h₃ _).bind fun more s₄ h₄ => ?_
  refine (blockAfter hset h₄ .else_).bind fun last s₅ h₅ => .pure h₅ ?_
  rintro ⟨⟨⟨-, hbody⟩, hmore⟩, hlast⟩ b hb -
  simp only [Stmt.bodies, List.cons_append, List.mem_cons, List.mem_append, List.mem_map,
    Option.mem_toList] at hb
  obtain rfl | ⟨branch, hbranch, rfl⟩ | hb := hb
  · exact hbody
  · exact hmore branch hbranch
  · exact hlast b hb

theorem whileLoop (hcur : s₀.cur.kind.isFlat = true) :
    Walks source s₀ (HasBodies fuel s₀) (Parser.whileLoop (partsWith fuel)) s₀ := by
  refine (advance hset.suffix (.refl source s₀) hcur).bind fun word s₁ h₁ => ?_
  refine (expr hset.suffix h₁).bind fun condition s₂ h₂ => ?_
  exact (block hset h₂).bind fun body s₃ h₃ =>
    .pure h₃ fun hbody => .single rfl rfl fun _ => hbody.2

theorem withinStmt (hcur : s₀.cur.kind.isFlat = true) :
    Walks source s₀ (HasBodies fuel s₀) (Parser.withinStmt (partsWith fuel)) s₀ := by
  refine (advance hset.suffix (.refl source s₀) hcur).bind fun word s₁ h₁ => ?_
  refine (expr hset.suffix h₁).bind fun resource s₂ h₂ => ?_
  refine (binder hset.suffix h₂).bind fun name s₃ h₃ => ?_
  exact (block hset h₃).bind fun body s₄ h₄ =>
    .pure h₄ fun hbody => .single rfl rfl fun _ => hbody.2

theorem mainStmt (hcur : s₀.cur.kind.isFlat = true) :
    Walks source s₀ (HasBodies fuel s₀) (do
      let word ← Parser.advance
      return .main word.pos (← Parser.block (partsWith fuel))) s₀ := by
  refine (advance hset.suffix (.refl source s₀) hcur).bind fun word s₁ h₁ => ?_
  exact (block hset h₁).bind fun body s₂ h₂ =>
    .pure h₂ fun hbody => .single rfl rfl fun _ => hbody.2

theorem spellStmt : Walks source s₀ (HasBodies fuel s₀)
    (do return .spell (← Parser.spell (partsWith fuel) false)) s₀ :=
  (spell hset (.refl source s₀) false).bind fun _ _ h₁ =>
    .pure h₁ fun hbody => .single rfl rfl hbody.2

theorem arcaneSpell (hcur : s₀.cur.kind.isFlat = true) :
    Walks source s₀ (HasBodies fuel s₀) (Parser.arcaneSpell (partsWith fuel)) s₀ := by
  refine (advance hset.suffix (.refl source s₀) hcur).bind fun _ s₁ h₁ => ?_
  refine (expect hset.suffix h₁ rfl).bind fun _ s₂ h₂ => ?_
  refine (skipNewlines hset.suffix h₂ _).bind fun _ s₃ h₃ => .check ?_
  split
  · exact .stuck h₃ rfl
  · exact (spell hset h₃ true).bind fun decl s₄ h₄ =>
      .pure h₄ fun hbody => .single rfl rfl hbody.2

theorem eachLoop (hcur : s₀.cur.kind.isFlat = true) :
    Walks source s₀ (HasBodies fuel s₀) (Parser.eachLoop (partsWith fuel)) s₀ := by
  refine (advance hset.suffix (.refl source s₀) hcur).bind fun word s₁ h₁ => ?_
  refine (pattern hset.suffix h₁).bind fun names s₂ h₂ => ?_
  refine (expect hset.suffix h₂ rfl).bind fun _ s₃ h₃ => ?_
  refine (expr hset.suffix h₃).bind fun iterable s₄ h₄ => ?_
  refine (block hset h₄).bind fun body s₅ h₅ => ?_
  refine (blockAfter hset h₅ .else_).bind fun last s₆ h₆ => .pure h₆ ?_
  rintro ⟨⟨-, hbody⟩, hlast⟩ b hb -
  simp only [Stmt.bodies, List.mem_cons, Option.mem_toList] at hb
  obtain rfl | hb := hb
  · exact hbody
  · exact hlast b hb

theorem ensnares (h : Reaches source s₀ P s) (n : Nat) :
    Walks source s₀ (fun more => P ∧ ∀ e ∈ more, Attached fuel (Stands fuel) 0 s₀ e.body)
      (Parser.ensnares (partsWith fuel) n) s := by
  induction n generalizing P s with
  | zero => exact .outOfFuel
  | succ n ih =>
    refine .check ?_
    split
    · rename_i hk
      have hk' : s.cur.kind = .keyword .ensnare := by simpa using hk
      refine (advance hset.suffix h (by simp [hk', Kind.isFlat])).bind fun word s₁ h₁ => .look ?_
      have hrest : ∀ condition s', Reaches source s₀ P s' → Walks source s₀
          (fun more => P ∧ ∀ e ∈ more, Attached fuel (Stands fuel) 0 s₀ e.body) (do
            let binder ← Parser.binder
            let body ← Parser.block (partsWith fuel)
            return (⟨word.pos, condition, binder, body⟩ : Ensnare) ::
              (← Parser.ensnares (partsWith fuel) n)) s' := by
        intro condition s' h'
        refine (binder hset.suffix h').bind fun name s₂ h₂ => ?_
        refine (block hset h₂).bind fun body s₃ h₃ => (ih h₃).bind fun more s₄ h₄ => .pure h₄ ?_
        rintro ⟨⟨hP, hbody⟩, hmore⟩
        exact ⟨hP, List.forall_mem_cons.2 ⟨hbody, hmore⟩⟩
      split
      · exact hrest none s₁ h₁
      · exact hrest none s₁ h₁
      · have hcondition : Walks source s₀ (fun _ => P) (some <$> (partsWith fuel).expr) s₁ :=
          (expr hset.suffix h₁).map fun _ => id
        exact hcondition.bind fun condition s₂ h₂ => hrest condition s₂ h₂
    · exact .pure h fun hP => ⟨hP, List.forall_mem_nil _⟩

theorem attemptStmt (hcur : s₀.cur.kind.isFlat = true) :
    Walks source s₀ (HasBodies fuel s₀) (Parser.attemptStmt (partsWith fuel)) s₀ := by
  refine (advance hset.suffix (.refl source s₀) hcur).bind fun word s₁ h₁ => ?_
  refine (block hset h₁).bind fun body s₂ h₂ => (ensnares hset h₂ _).bind fun more s₃ h₃ => ?_
  refine (blockAfter hset h₃ .resolve).bind fun last s₄ h₄ => .pure h₄ ?_
  rintro ⟨⟨⟨-, hbody⟩, hmore⟩, hlast⟩ b hb -
  simp only [Stmt.bodies, List.cons_append, List.mem_cons, List.mem_append, List.mem_map,
    Option.mem_toList] at hb
  obtain rfl | ⟨e, he, rfl⟩ | hb := hb
  · exact hbody
  · exact hmore e he
  · exact hlast b hb

theorem grimoire : Walks source s₀ (HasBodies fuel s₀) (Parser.grimoire (partsWith fuel)) s₀ := by
  refine (accept hset.suffix (.refl source s₀) rfl).bind fun arcane s₁ h₁ => ?_
  refine (expect hset.suffix h₁ rfl).bind fun _ s₂ h₂ => ?_
  refine (ident hset.suffix h₂).bind fun name s₃ h₃ => ?_
  have hrest : ∀ parent s', Reaches source s₀ True s' → Walks source s₀ (HasBodies fuel s₀) (do
      let body ← Parser.block (partsWith fuel)
      return Stmt.grimoire (← Parser.grimoireOf name parent arcane body)) s' := by
    intro parent s' h'
    refine (block hset h').bind fun body s₄ h₄ => ?_
    obtain ⟨g, s₅, hg, ⟨htokens, hfound⟩, hspells⟩ := Tells.grimoireOf name parent arcane body s₄
    have hdone : Walks source s₀ (HasBodies fuel s₀) (Pure.pure (.grimoire g)) s₅ := by
      refine .pure (h₄.reported htokens hfound) ?_
      rintro ⟨-, t, all, t', hleads, hlevels, hcolon, hall, hsub, hat⟩
      refine .single rfl rfl fun _ => ⟨t, all, t', hleads, hlevels, hcolon, hall, ?_, hat⟩
      intro a ha
      obtain ⟨decl, hdecl, rfl⟩ := List.mem_map.1 ha
      exact hsub _ (hspells decl hdecl)
    refine .of_eq ?_ hdone
    simp only [Bind.bind, EStateM.bind, hg]
  refine (accept hset.suffix h₃ rfl).bind fun b s₄ h₄ => ?_
  split
  · refine (ident hset.suffix h₄).bind fun parent s₅ h₅ => ?_
    exact (expect hset.suffix h₅ rfl).bind fun _ s₆ h₆ => hrest (some parent) s₆ h₆
  · exact hrest none s₄ h₄

theorem cases (h : Reaches source s₀ P s) {default : Option (List Stmt)}
    (hdefault : P → ∀ b ∈ default, Attached fuel (Stands fuel) 0 s₀ b) (n : Nat) :
    Walks source s₀ (fun r => P ∧ (∀ c ∈ r.1, Attached fuel (Stands fuel) 0 s₀ c.2) ∧
        ∀ b ∈ r.2, Attached fuel (Stands fuel) 0 s₀ b)
      (Parser.cases (partsWith fuel) default n) s := by
  induction n generalizing P s default with
  | zero => exact .outOfFuel
  | succ n ih =>
    have hflat : ∀ c, s.cur.kind = c → c.isFlat = true → s.cur.kind.isFlat = true :=
      fun c hc => hc ▸ id
    -- Of several defaults the last counts.
    have hlast : ∀ s', Reaches source s₀ P s' → Walks source s₀
        (fun r => P ∧ (∀ c ∈ r.1, Attached fuel (Stands fuel) 0 s₀ c.2) ∧
          ∀ b ∈ r.2, Attached fuel (Stands fuel) 0 s₀ b) (do
            Parser.cases (partsWith fuel) (some (← Parser.block (partsWith fuel))) n) s' := by
      intro s' h'
      refine (block hset h').bind fun body s₂ h₂ => ?_
      refine (ih h₂ fun hbody b hb => ?_).imp fun r hr => ⟨hr.1.1, hr.2⟩
      cases hb
      exact hbody.2
    refine .look ?_
    split
    · exact (advance hset.suffix h (hflat _ ‹_› rfl)).bind fun _ s₁ h₁ => ih h₁ hdefault
    · refine (advance hset.suffix h (hflat _ ‹_› rfl)).bind fun _ s₁ h₁ => ?_
      refine (accept hset.suffix h₁ rfl).bind fun b s₂ h₂ => ?_
      split
      · exact hlast s₂ h₂
      · refine (expr hset.suffix h₂).bind fun candidate s₃ h₃ => ?_
        refine (block hset h₃).bind fun body s₄ h₄ => ?_
        refine (ih h₄ fun hP => hdefault hP.1).bind fun r s₅ h₅ => .pure h₅ ?_
        rintro ⟨⟨hP, hbody⟩, hmore, hlast⟩
        exact ⟨hP, List.forall_mem_cons.2 ⟨hbody, hmore⟩, hlast⟩
    · exact (advance hset.suffix h (hflat _ ‹_› rfl)).bind fun _ s₁ h₁ => hlast s₁ h₁
    · exact .pure h fun hP => ⟨hP, List.forall_mem_nil _, hdefault hP⟩
    · exact .pure h fun hP => ⟨hP, List.forall_mem_nil _, hdefault hP⟩
    · exact .stuck h rfl

omit hset in
theorem cases_end (hs : s.Within source k) (n : Nat)
    {r : List (Expr × List Stmt) × Option (List Stmt)}
    (h : Parser.cases (partsWith fuel) none n s = .ok r s') : endsBlock s'.cur.kind = true := by
  have hparts : PartsProceed (@Demand.full Unit source True) k fun _ => partsWith fuel :=
    ⟨exprsProceed_parts k fuel, proceeds_stmt trivial not_false (enough_one _ fuel)⟩
  obtain ⟨r', hr, hallowed⟩ :=
    Proceeds.cases trivial not_false hparts (enough_one k n) hs none nofun
  obtain rfl : .ok r s' = r' := h.symm.trans (hr () (.inl trivial))
  exact hallowed.2.2.2

theorem matchStmt (hcur : s₀.cur.kind.isFlat = true)
    (hfail : ∀ e s', Parser.matchStmt (partsWith fuel) s₀ = .error (.complaint e) s' →
      Reaches source s₀ True (s'.reporting e)) :
    Walks source s₀ (HasBodies fuel s₀) (Parser.matchStmt (partsWith fuel)) s₀ := by
  refine of_cases (fun a last hok => ?_) hfail
  obtain ⟨word, s₁, hword, hok⟩ := bind_eq_ok.1 hok
  have h₁ := (advance hset.suffix (.refl source s₀) hcur).ok hword
  obtain ⟨subject, s₂, hsubject, hok⟩ := bind_eq_ok.1 hok
  have h₂ := (expr hset.suffix h₁).ok hsubject
  obtain ⟨_, s₃, hcolon, hok⟩ := bind_eq_ok.1 hok
  have h₃ := (expect hset.suffix h₂ rfl).ok hcolon
  obtain ⟨_, s₄, hline, hok⟩ := bind_eq_ok.1 hok
  have h₄ := (expect hset.suffix h₃ rfl).ok hline
  obtain ⟨_, s₅, hindent, hok⟩ := bind_eq_ok.1 hok
  have hk : s₄.cur.kind = .indent := by
    by_contra hne
    rw [Proceeds.expect_of_ne hne] at hindent
    cases hindent
  obtain ⟨t, ts, hahead⟩ := h₄.ahead hset.suffix (by simp [hk])
  obtain rfl : (⟨t, ts, s₄.found⟩ : State) = s₅ := by
    simp only [Parser.expect, Parser.check, Bind.bind, EStateM.bind, hk, beq_self_eq_true, if_true,
      Parser.advance, hahead] at hindent
    cases hindent
    rfl
  have hs := suffix_behind hahead (h₄.suffix hset.suffix)
  have hinside : Setting source fuel ⟨t, ts, s₄.found⟩ := by
    refine ⟨hset.errors, hset.stmts, hs, ?_⟩
    exact Nat.lt_trans (weigh_behind hahead) (Nat.lt_of_le_of_lt h₄.weigh_le hset.weight)
  obtain ⟨⟨more, default⟩, s₆, hcases, hok⟩ := bind_eq_ok.1 hok
  have hnone : True → ∀ b ∈ (none : Option (List Stmt)),
      Attached fuel (Stands fuel) 0 ⟨t, ts, s₄.found⟩ b :=
    fun _ b hb => absurd hb (Option.not_mem_none b)
  have h₆ := (cases hinside (.refl source _) hnone _).ok hcases
  have hend := cases_end ((Reaches.refl source _).within hs) _ hcases
  obtain ⟨b, s₇, haccept, h₇⟩ := h₆.enclosed hset.errors (h₄.suffix hset.suffix) hk hahead hend
  obtain ⟨b', s₈, haccept', hok⟩ := bind_eq_ok.1 hok
  cases haccept.symm.trans haccept'
  cases hok
  refine (h₄.even.trans h₇).imp ?_
  rintro ⟨⟨-, heven⟩, ⟨-, hmore, hdefault⟩, -⟩ body hbody -
  simp only [Stmt.bodies, List.mem_append, List.mem_map, Option.mem_toList] at hbody
  obtain ⟨c, hc, rfl⟩ | hbody := hbody
  · exact (hmore c hc).outward h₄.toLeads heven hk hahead
  · exact (hdefault body hbody).outward h₄.toLeads heven hk hahead

theorem stmtOf (hfail : s₀.cur.kind = .keyword .match_ → ∀ e s',
      Parser.matchStmt (partsWith fuel) s₀ = .error (.complaint e) s' →
        Reaches source s₀ True (s'.reporting e)) :
    Walks source s₀ (HasBodies fuel s₀) (Parser.stmtOf (partsWith fuel)) s₀ := by
  have hflat : ∀ c, s₀.cur.kind = c → c.isFlat = true → s₀.cur.kind.isFlat = true :=
    fun c hc => hc ▸ id
  have hs := ((Reaches.refl source s₀).within hset.suffix).mono (Nat.le_succ _)
  have hp : ExprsProceed source True (weigh s₀.tokens) fun _ : Unit => partsWith fuel :=
    exprsProceed_parts _ fuel
  refine .look ?_
  split
  · exact spellStmt hset
  · exact spellStmt hset
  · exact arcaneSpell hset (hflat _ ‹_› rfl)
  · exact grimoire hset
  · exact grimoire hset
  · exact conditional hset (hflat _ ‹_› rfl)
  · exact whileLoop hset (hflat _ ‹_› rfl)
  · exact eachLoop hset (hflat _ ‹_› rfl)
  · exact plain (.returnStmt trivial hp hs ‹_›)
  · exact plain (.importStmt trivial hs ‹_›)
  · exact matchStmt hset (hflat _ ‹_› rfl) (hfail ‹_›)
  · exact attemptStmt hset (hflat _ ‹_› rfl)
  · exact plain (.raiseStmt trivial hp hs ‹_›)
  · exact plain (.wordStmt trivial hs ‹_› rfl (fun _ => rfl) fun _ => ⟨rfl, rfl, rfl, rfl⟩)
  · exact plain (.wordStmt trivial hs ‹_› rfl (fun _ => rfl) fun _ => ⟨rfl, rfl, rfl, rfl⟩)
  · exact plain (.wordStmt trivial hs ‹_› rfl (fun _ => rfl) fun _ => ⟨rfl, rfl, rfl, rfl⟩)
  · exact plain (.globalStmt trivial hp hs ‹_›)
  · exact withinStmt hset (hflat _ ‹_› rfl)
  · exact mainStmt hset (hflat _ ‹_› rfl)
  · exact plain (.exprStmt trivial hp hs)

end Bodies

end Walks

/-! The knot -/

theorem stmt_eq_of_enough {f g : Nat} (hs : s.Within source k) (hf : k + 1 < f) (hg : k + 1 < g) :
    stmt f s = stmt g s := by
  obtain ⟨k, rfl⟩ := Nat.exists_eq_add_one.2 hs.pos
  have hboth : Enough False (k + 2) fun b : Bool => cond b f g := by
    refine .inl fun b => ?_
    cases b
    · exact hg
    · exact hf
  obtain ⟨r, hr, -⟩ :=
    proceeds_stmt (d := .full source False) trivial not_false hboth k (Nat.lt_succ_self k) s hs
  exact (hr true (.inl trivial)).trans (hr false (.inl trivial)).symm

theorem weigh_of_suffix (hs : s.tokens <:+ tokensOf source) :
    weigh s.tokens + 1 < budget source.length := by
  obtain ⟨ts, hts⟩ := hs
  have htotal := weigh_tokensOf source
  rw [← hts, weigh_append] at htotal
  simp only [budget]
  omega

theorem reaches_of_match_error {e : Diagnostic} (hs : s.tokens <:+ tokensOf source)
    (hfuel : weigh s.tokens + 1 < fuel) (hcur : s.cur.kind = .keyword .match_)
    (h : stmt fuel s = .error (.complaint e) s') : Reaches source s True (s'.reporting e) := by
  have hwithin := (Reaches.refl source s).within hs
  have hallowed := allowed_stmt fuel (hwithin.mono (Nat.le_succ _))
  rw [h] at hallowed
  refine ⟨hallowed.2.1.toLeads.trans ⟨List.suffix_rfl, List.suffix_cons _ _⟩, fun hregular => ?_⟩
  refine ⟨?_, trivial⟩
  by_contra hne
  refine hregular e List.mem_cons_self ⟨s, s', hs, hcur, ?_, hne⟩
  rw [← h]
  exact stmt_eq_of_enough hwithin (weigh_of_suffix hs) hfuel

theorem stmtsWalk (herrors : lexErrorsOf source = []) (fuel : Nat) : StmtsWalk source fuel := by
  induction fuel with
  | zero => exact fun s _ hfuel => absurd hfuel (Nat.not_lt_zero _)
  | succ fuel ih =>
    intro s hs hfuel
    have hset : Setting source fuel s := ⟨herrors, ih, hs, Nat.lt_of_succ_lt_succ hfuel⟩
    have hwalks : Walks source s (HasBodies fuel s) (stmt (fuel + 1)) s := by
      refine Walks.stmtOf hset fun hcur e s' he => ?_
      refine reaches_of_match_error hs hfuel hcur ?_
      rw [← he, stmt, stmtOf]
      simp only [Bind.bind, EStateM.bind, Parser.cur, hcur]
      rfl
    exact hwalks.self.imp fun a ha => ⟨ha.2, ha.1⟩

end Spellbook.Parser
