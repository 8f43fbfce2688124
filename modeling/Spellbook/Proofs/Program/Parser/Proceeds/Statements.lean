import Spellbook.Proofs.Program.Parser.Proceeds.Blocks
import Spellbook.Proofs.Program.Parser.Proceeds.Expressions
import Spellbook.Proofs.Program.Parts

/-! Statements proceed on every text, whatever their kind and whether their bodies are inline or
blocks, and are read from it. There is one statement for each function of the parser, and none of
them says how the parts are parsed. -/
namespace Spellbook.Parser

open State

/-- The expressions of a statement proceed where there are tokens of weight `k` behind its first.
They may start where it starts. -/
structure ExprsProceed {ι : Type} (text : String) (spends : Prop) (k : Nat) (p : ι → Parts) :
    Prop where
  fuel : Enough spends (k + 1) fun i => (p i).fuel
  expr : ∀ j ≤ k, ∀ s, s.Within text (j + 1) →
    Proceeds (.level text spends) j (fun i => (p i).expr) s (Made (Expr.ReadFrom text))

/-- So do its statements, which start behind its first token. -/
structure PartsProceed {ι : Type} (d : Demand ι) (k : Nat) (p : ι → Parts) : Prop
    extends ExprsProceed d.text d.spends k p where
  stmt : ∀ j < k, ∀ s, s.Within d.text (j + 1) →
    Proceeds d j (fun i => (p i).stmt) s (Made (Stmt.All (Stmt.ReadFrom d.text)))

theorem ExprsProceed.mono {ι : Type} {text : String} {spends : Prop} {j k : Nat} {p : ι → Parts}
    (hp : ExprsProceed text spends k p) (hle : j ≤ k) : ExprsProceed text spends j p where
  fuel := hp.fuel.mono (Nat.succ_le_succ hle)
  expr i hi := hp.expr i (Nat.le_trans hi hle)

theorem PartsProceed.mono {ι : Type} {d : Demand ι} {j k : Nat} {p : ι → Parts}
    (hp : PartsProceed d k p) (hle : j ≤ k) : PartsProceed d j p where
  toExprsProceed := hp.toExprsProceed.mono hle
  stmt i hi := hp.stmt i (Nat.lt_of_lt_of_le hi hle)

theorem isFlat_of_isSeparator {c : Kind} (h : isSeparator c = true) : c.isFlat = true := by
  cases c <;> first | rfl | cases h

/-- A statement that is read from the text and has no bodies. -/
abbrev Bodiless (text : String) : Stmt → State → Prop :=
  Made fun a => a.bodies = [] ∧ a.All (Stmt.ReadFrom text)

namespace Proceeds

variable {ι : Type} {d : Demand ι} {k : Nat} {s : State} {p : ι → Parts} {f : ι → Nat}

/-! Parts that hold no statements -/

theorem report (hn : ¬ d.flat) (hs : s.Within d.text k) {e : Diagnostic}
    (he : e.Quotes (tokensOf d.text)) : Proceeds d k (fun _ : ι => Parser.report e) s Free := by
  refine const ⟨⟨.reporting hn he, fun _ hfound => ?_⟩, hs.reporting e, trivial⟩
  exact absurd hfound (List.cons_ne_self _ _)

section Fails

variable (hd : d.fails)

include hd

theorem endStatement (hs : s.Within d.text k) :
    Proceeds d k (fun _ : ι => Parser.endStatement) s Free := by
  obtain ⟨k, rfl⟩ := Nat.exists_eq_add_one.2 hs.pos
  have htake : s.cur.kind.isFlat = true → Proceeds d (k + 1)
      (fun _ : ι => do let _ ← Parser.advance) s Free :=
    fun hcur => (advance hs hcur).bind fun _ _ hs' _ => .pure (hs'.mono (Nat.le_succ k)) trivial
  refine .look ?_
  split
  · exact htake (by simp [‹s.cur.kind = _›, Kind.isFlat])
  · exact htake (by simp [‹s.cur.kind = _›, Kind.isFlat])
  · exact .pure hs trivial
  · exact .pure hs trivial
  · exact .unexpected hd _

theorem binder (hs : s.Within d.text k) : Proceeds d k (fun _ : ι => Parser.binder) s
    (Made fun id => ∀ k ∈ id.toList.map Ident.mark, HasToken d.text k) :=
  .ifAccepted hs rfl
    (fun _ hs' => (named hd hs').map fun _ _ _ hid => List.forall_mem_singleton.2 hid.2)
    (.pure hs nofun)

theorem moreNames (hf : Enough d.spends k f) (hs : s.Within d.text k) :
    Proceeds d k (fun i => Parser.moreNames (f i)) s
      (Made fun ids => ∀ id ∈ ids, id.IsVariable ∧ HasToken d.text id.mark) := by
  induction k generalizing s f with
  | zero => exact absurd hs.pos (Nat.lt_irrefl 0)
  | succ k ih =>
    obtain ⟨hspends, rfl⟩ | ⟨g, rfl, hg⟩ := hf.pred
    · exact .outOfFuel hspends
    · refine .ifAccepted hs rfl (fun s' hs' => ?_) (.pure hs nofun)
      refine (ident hd hs').bind fun _ s'' hs'' hid => ?_
      refine (ih hg hs'').bind fun _ s₃ hs₃ hids => ?_
      exact .pure (hs₃.mono (Nat.le_succ k)) (List.forall_mem_cons.2 ⟨hid, hids⟩)

omit hd in
theorem skipNewlines (hf : Enough d.spends k f) (hs : s.Within d.text k) :
    Proceeds d k (fun i => Parser.skipNewlines (f i)) s Free := by
  induction k generalizing s f with
  | zero => exact absurd hs.pos (Nat.lt_irrefl 0)
  | succ k ih =>
    obtain ⟨hspends, rfl⟩ | ⟨g, rfl, hg⟩ := hf.pred
    · exact .outOfFuel hspends
    · refine .ifAccept hs rfl (fun s' hs' => ?_) (.pure hs trivial)
      exact (ih hg hs').mono (Nat.le_succ k)

/-- A statement that is one word has nothing but the mark of the word. -/
theorem wordStmt {c : Kind} (hs : s.Within d.text (k + 1)) (hcur : s.cur.kind = c)
    (hc : c.isSolid = true) {make : Pos → Stmt} (hmark : ∀ pos, (make pos).marks = [c.mark pos])
    (hmake : ∀ pos, (make pos).bodies = [] ∧ (make pos).trees = [] ∧ (make pos).blocks = [] ∧
      (make pos).spells = []) :
    Proceeds d k (fun _ : ι => Parser.wordStmt make) s (Bodiless d.text) := by
  refine (advance hs (hcur ▸ isFlat_of_isSolid hc)).bind fun word _ hs' hword => ?_
  subst hword
  obtain ⟨hbodies, htrees, hblocks, hspells⟩ := hmake s.cur.pos
  refine (endStatement hd hs').bind fun _ _ hs'' _ => .pure hs''
    ⟨hbodies, .plain (htrees ▸ nofun) (hblocks ▸ nofun) ?_ hspells⟩
  rw [hmark]
  exact List.forall_mem_singleton.2 (hs.cur.mark hcur hc)

theorem importStmt (hs : s.Within d.text (k + 1)) (hcur : s.cur.kind = .keyword .import_) :
    Proceeds d k (fun _ : ι => Parser.importStmt) s (Bodiless d.text) := by
  refine (advance hs (hcur ▸ rfl)).bind fun _ _ hs₁ hword => ?_
  refine (expected hd hs₁ rfl).bind fun _ _ hs₂ _ => ?_
  refine (binder hd hs₂).bind fun _ _ hs₃ hid => ?_
  refine (endStatement hd hs₃).bind fun _ _ hs₄ _ => .pure hs₄ ⟨rfl, .plain nofun nofun ?_ rfl⟩
  exact List.forall_mem_cons.2 ⟨hword ▸ hs.cur.mark hcur rfl, hid⟩

omit hd in
theorem reports {α : Type} (xs : List α) {f : α → PUnit → Parse (ForInStep PUnit)}
    (hs : s.Within d.text k) (hf : ∀ x u s', s'.Within d.text k →
      Proceeds d k (fun _ : ι => f x u) s' fun r _ => r = .yield .unit) :
    Proceeds d k (fun _ : ι => forIn xs PUnit.unit f) s Free := by
  induction xs generalizing s with
  | nil => exact .pure hs trivial
  | cons x xs ih =>
    simp only [List.forIn_cons]
    refine (hf x _ s hs).bind fun r s' hs' hr => ?_
    subst hr
    exact ih hs'

omit hd in
theorem grimoireOf (hn : ¬ d.flat) (name : Ident) (parent : Option Ident) (arcane : Bool)
    {body : List Stmt} (hbody : ∀ a ∈ body, a.All (Stmt.ReadFrom d.text))
    (hs : s.Within d.text k) :
    Proceeds d k (fun _ : ι => Parser.grimoireOf name parent arcane body) s
      (Made fun g => g.name = name ∧ g.parent = parent ∧ g.Parted ∧
        ∀ decl ∈ g.init.toList ++ g.methods, decl.ReadFrom d.text) := by
  refine (reports _ hs fun m u s' hs' => ?_).bind fun _ _ hs' _ =>
    .pure hs' ⟨rfl, rfl, parted_of_members name parent arcane body, fun decl hdecl => ?_⟩
  · split
    · exact (report (e := ⟨name.pos, .strayStatement name.name⟩) hn hs'
        (Diagnostic.quotes_of_ne nofun)).bind fun _ _ hs'' _ => .pure hs'' rfl
    · exact .pure hs' rfl
  · exact SpellDecl.readFrom_of_all (hbody _ (spell_mem_of_members hdecl))

/-! Parts with expressions -/

section Parts

section Exprs

variable (hp : ExprsProceed d.text d.spends k p)

include hp

theorem expr (hs : s.Within d.text k) :
    Proceeds d k (fun i => (p i).expr) s (Made (Expr.ReadFrom d.text)) := by
  obtain ⟨k, rfl⟩ := Nat.exists_eq_add_one.2 hs.pos
  exact of_level hd ((hp.expr k (Nat.le_succ k) s hs).mono (Nat.le_succ k))

theorem moreExprs (hf : Enough d.spends k f) (hs : s.Within d.text k) :
    Proceeds d k (fun i => Parser.moreExprs (p i).expr (f i)) s
      (Made fun es => ∀ e ∈ es, e.ReadFrom d.text) := by
  induction k generalizing s f with
  | zero => exact absurd hs.pos (Nat.lt_irrefl 0)
  | succ k ih =>
    obtain ⟨hspends, rfl⟩ | ⟨g, rfl, hg⟩ := hf.pred
    · exact .outOfFuel hspends
    · refine .ifAccepted hs rfl (fun s' hs' => ?_) (.pure hs nofun)
      refine .look (.check ?_)
      split
      · exact .pure hs' nofun
      · refine (of_level hd (hp.expr k (Nat.le_succ k) s' hs')).bind fun _ s'' hs'' he => ?_
        refine (ih (hp.mono (Nat.le_succ k)) hg hs'').bind fun _ s₃ hs₃ hes => ?_
        exact .pure (hs₃.mono (Nat.le_succ k)) (List.forall_mem_cons.2 ⟨he, hes⟩)

theorem exprList (hs : s.Within d.text (k + 1)) :
    Proceeds d k (fun i => Parser.exprList (p i)) s (Made (Expr.ReadFrom d.text)) := by
  refine (of_level hd (hp.expr k (Nat.le_refl k) s hs)).bind fun first s' hs' hfirst => .check ?_
  split
  · refine (moreExprs hd hp (hp.fuel.mono (Nat.le_succ k)) hs').bind fun _ _ hs'' hmore =>
      .pure hs'' (.one trivial rfl (hfirst.hasToken fun _ => .inr rfl) rfl ?_)
    exact List.forall_mem_cons.2 ⟨hfirst, hmore⟩
  · exact .pure hs' hfirst

theorem exprLists (hs : s.Within d.text k) :
    Proceeds d k (fun i => Parser.exprList (p i)) s (Made (Expr.ReadFrom d.text)) := by
  obtain ⟨k, rfl⟩ := Nat.exists_eq_add_one.2 hs.pos
  exact (exprList hd (hp.mono (Nat.le_succ k)) hs).mono (Nat.le_succ k)

theorem params (hf : Enough d.spends k f) (hs : s.Within d.text k) (count : Nat) :
    Proceeds d k (fun i => Parser.params (p i).expr (f i) count) s
      (Made fun ps => ∀ q ∈ ps, q.ReadFrom d.text) := by
  induction k generalizing s f count with
  | zero => exact absurd hs.pos (Nat.lt_irrefl 0)
  | succ k ih =>
    have hp' := hp.mono (Nat.le_succ k)
    obtain ⟨hspends, rfl⟩ | ⟨g, rfl, hg⟩ := hf.pred
    · exact .outOfFuel hspends
    · refine .check ?_
      split
      · exact .pure hs nofun
      · split
        · exact .stuck hd (fun _ => rfl) nofun
        · refine (ident hd hs).bind fun name s₁ hs₁ hname => ?_
          refine .ifMarked hs₁ rfl (fun s₂ hs₂ => some (named hd hs₂)) nofun
            fun hint s₂ hs₂ hhint => ?_
          refine .ifMarked hs₂ rfl (fun s₃ hs₃ => some (expr hd hp' hs₃)) nofun
            fun default s₃ hs₃ hdefault => ?_
          have hparam : Param.ReadFrom d.text ⟨name, hint, default⟩ := by
            refine ⟨List.forall_mem_cons.2 ⟨hname.2, fun p hmem => ?_⟩, hdefault⟩
            obtain ⟨id, hid, rfl⟩ := List.mem_map.1 hmem
            exact (hhint id (Option.mem_toList.1 hid)).2
          refine .ifAccepted hs₃ rfl (fun s₄ hs₄ => ?_)
            (.pure (hs₃.mono (Nat.le_succ k)) (List.forall_mem_singleton.2 hparam))
          refine (ih hp' hg hs₄ _).bind fun _ s₅ hs₅ hps => ?_
          exact .pure (hs₅.mono (Nat.le_succ k)) (List.forall_mem_cons.2 ⟨hparam, hps⟩)

theorem returnStmt (hs : s.Within d.text (k + 1)) (hcur : s.cur.kind = .keyword .return_) :
    Proceeds d k (fun i => Parser.returnStmt (p i)) s (Bodiless d.text) := by
  refine (advance hs (hcur ▸ rfl)).bind fun word s' hs' hword => .look ?_
  subst hword
  have hrest : ∀ value s', s'.Within d.text k → (∀ e ∈ value, e.ReadFrom d.text) →
      Proceeds d k (fun _ : ι => do Parser.endStatement; return Stmt.give s.cur.pos value) s'
        (Bodiless d.text) := by
    refine fun value s' hs' hvalue => (endStatement hd hs').bind fun _ _ hs'' _ => .pure hs''
      ⟨rfl, .plain ?_ nofun (List.forall_mem_singleton.2 (hs.cur.mark hcur rfl)) rfl⟩
    exact List.forall_mem_append.2 ⟨fun e he => hvalue e (Option.mem_toList.1 he), nofun⟩
  split
  · exact hrest none s' hs' nofun
  · exact (some (exprLists hd hp hs')).bind hrest

theorem pattern (hs : s.Within d.text k) : Proceeds d k (fun i => Parser.pattern (p i)) s
    (Made fun pat => pat.toTarget.toExpr.ReadFrom d.text) := by
  have hname : ∀ id : Ident, id.IsVariable ∧ HasToken d.text id.mark →
      (Expr.name id).ReadFrom d.text :=
    fun id h => .one h.1 rfl h.2 rfl nofun
  refine (named hd hs).bind fun first s' hs' hfirst => .check ?_
  split
  · refine (moreNames hd (hp.fuel.mono (Nat.le_succ k)) hs').bind fun ids _ hs'' hids =>
      .pure hs'' (.one trivial rfl ((hname first hfirst).hasToken fun _ => .inr rfl) rfl ?_)
    intro e he
    obtain ⟨id, hid, rfl⟩ := List.mem_map.1 he
    obtain rfl | hid := List.mem_cons.1 hid
    · exact hname _ hfirst
    · exact hname id (hids id hid)
  · exact .pure hs' (hname first hfirst)

theorem globalStmt (hs : s.Within d.text (k + 1)) (hcur : s.cur.kind = .keyword .global) :
    Proceeds d k (fun i => Parser.globalStmt (p i)) s (Bodiless d.text) := by
  refine (advance hs (hcur ▸ rfl)).bind fun _ _ hs₁ hword => ?_
  refine (named hd hs₁).bind fun first _ hs₂ hfirst => ?_
  refine (moreNames hd (hp.fuel.mono (Nat.le_succ k)) hs₂).bind fun ids _ hs₃ hids => ?_
  refine (endStatement hd hs₃).bind fun _ _ hs₄ _ => .pure hs₄ ⟨rfl, .plain nofun nofun ?_ rfl⟩
  refine List.forall_mem_cons.2 ⟨hword ▸ hs.cur.mark hcur rfl, fun k hk => ?_⟩
  obtain ⟨id, hid, rfl⟩ := List.mem_map.1 hk
  obtain rfl | hid := List.mem_cons.1 hid
  · exact hfirst.2
  · exact (hids id hid).2

theorem raiseStmt (hs : s.Within d.text (k + 1)) (hcur : s.cur.kind = .keyword .raise) :
    Proceeds d k (fun i => do
      let word ← Parser.advance
      let value ← (p i).expr
      Parser.endStatement
      return Stmt.raise word.pos value) s (Bodiless d.text) := by
  refine (advance hs (hcur ▸ rfl)).bind fun _ s₁ hs₁ hword => ?_
  refine (expr hd hp hs₁).bind fun _ s₂ hs₂ hvalue => ?_
  refine (endStatement hd hs₂).bind fun _ _ hs₃ _ => .pure hs₃ ⟨rfl, .plain ?_ nofun
    (List.forall_mem_singleton.2 (hword ▸ hs.cur.mark hcur rfl)) rfl⟩
  exact List.forall_mem_append.2 ⟨List.forall_mem_singleton.2 hvalue, nofun⟩

theorem exprStmt (hs : s.Within d.text (k + 1)) :
    Proceeds d k (fun i => Parser.exprStmt (p i)) s (Bodiless d.text) := by
  have hvalue : ∀ (make : Expr → Stmt) s', s'.Within d.text k →
      (∀ value, value.ReadFrom d.text →
        (make value).bodies = [] ∧ (make value).All (Stmt.ReadFrom d.text)) →
      Proceeds d k (fun i => do
        let value ← Parser.exprList (p i)
        Parser.endStatement
        return make value) s' (Bodiless d.text) := by
    intro make s' hs' hmake
    refine (exprLists hd hp hs').bind fun value s'' hs'' h => ?_
    exact (endStatement hd hs'').bind fun _ _ hs₃ _ => .pure hs₃ (hmake value h)
  have htake : ∀ c s', s'.Within d.text k → s'.cur.kind = c → c.isSolid = true →
      Proceeds d k (fun _ : ι => Parser.advance) s' Free := by
    intro c s' hs' hcur hc
    obtain ⟨k, rfl⟩ := Nat.exists_eq_add_one.2 hs'.pos
    exact (advance hs' (hcur ▸ isFlat_of_isSolid hc)).imp (Nat.le_succ k) fun _ _ _ _ => trivial
  refine (exprList hd hp hs).bind fun left s₁ hs₁ hleft => .look ?_
  by_cases hk : s₁.cur.kind = .symbol .assign
  · simp only [hk, if_true]
    refine (htake _ s₁ hs₁ hk rfl).bind fun _ s₂ hs₂ _ => ?_
    split
    · rename_i target htarget
      refine hvalue _ s₂ hs₂ fun value h => ⟨rfl, .plain ?_ nofun
        (List.forall_mem_singleton.2 (hs₁.cur.mark hk rfl)) rfl⟩
      exact List.forall_mem_cons.2 ⟨(target?_eq htarget).symm ▸ hleft,
        List.forall_mem_singleton.2 h⟩
    · exact .stuck hd (fun _ => rfl) nofun
  · simp only [hk, if_false]
    split
    · rename_i op hop
      have hmark := hs₁.cur.mark (eq_of_update? hop) (isSolid_update op)
      refine (htake _ s₁ hs₁ (eq_of_update? hop) (isSolid_update op)).bind fun _ s₂ hs₂ _ => ?_
      split
      · rename_i place hplace
        refine hvalue _ s₂ hs₂ fun value h =>
          ⟨rfl, .plain ?_ nofun (List.forall_mem_singleton.2 hmark) rfl⟩
        exact List.forall_mem_cons.2 ⟨(place?_eq hplace).symm ▸ hleft,
          List.forall_mem_singleton.2 h⟩
      · exact .failAt hd _ nofun
    · refine (endStatement hd hs₁).bind fun _ _ hs₂ _ =>
        .pure hs₂ ⟨rfl, .plain ?_ nofun nofun rfl⟩
      exact List.forall_mem_append.2 ⟨List.forall_mem_singleton.2 hleft, nofun⟩

end Exprs

/-! Bodies -/

variable (hn : ¬ d.flat) (hp : PartsProceed d k p)

include hn hp

theorem block (hs : s.Within d.text k) : Proceeds d k (fun i => Parser.block (p i)) s
    (Made fun body => ∀ a ∈ body, a.All (Stmt.ReadFrom d.text)) := by
  refine (expected hd hs rfl).bind fun _ s₁ hs₁ _ => .check ?_
  obtain ⟨k, rfl⟩ := Nat.exists_eq_add_one.2 hs.pos
  split
  · refine (hp.stmt k (Nat.lt_succ_self k) s₁ hs₁).bind fun _ _ hs₂ ha => ?_
    exact .pure (hs₂.mono (Nat.le_succ k)) (List.forall_mem_singleton.2 ha)
  · rename_i hline
    have hflat : s₁.cur.kind.isFlat = true := by
      have hk : s₁.cur.kind = .newline := by simpa using hline
      simp [hk, Kind.isFlat]
    refine (advance hs₁ hflat).bind fun _ s₂ hs₂ _ => .check ?_
    split
    · exact .stuck hd (fun _ => rfl) fun _ h => by cases h
    · rename_i hindent
      obtain ⟨k, rfl⟩ := Nat.exists_eq_add_one.2 hs₂.pos
      have hp' : PartsProceed d k p := hp.mono (by omega)
      refine (enclosed hn hs₂ (by simpa using hindent) (fun s₃ hs₃ => ?_)
        fun _ _ hs₄ hbody => .pure hs₄ hbody).mono (by omega)
      exact statements _ _ hn (fun j hj s hs => (hp'.stmt j hj s hs).mayFail) rfl (.inl rfl)
        (fun _ _ => isFlat_of_isSeparator) (hp'.fuel.mono (Nat.le_succ k)) hs₃

theorem blockAfter (hs : s.Within d.text k) (word : Keyword) :
    Proceeds d k (fun i => Parser.blockAfter (p i) word) s
      (Made fun body => ∀ a ∈ body.getD [], a.All (Stmt.ReadFrom d.text)) :=
  .ifAccepted hs rfl (fun _ hs' => (block hd hn hp hs').map fun _ _ _ hbody => hbody)
    (.pure hs nofun)

theorem spell (hs : s.Within d.text (k + 1)) (arcane : Bool) :
    Proceeds d k (fun i => Parser.spell (p i) arcane) s (Made (SpellDecl.ReadFrom d.text)) := by
  refine (accept hs rfl).bind fun _ s₁ hs₁ _ => .look ?_
  have hrest : ∀ (name : Ident) s', s'.Within d.text k → HasToken d.text name.mark →
      Proceeds d k (fun i => do
        let _ ← Parser.expect (.symbol .leftParen)
        let params ← Parser.params (p i).expr (p i).fuel 0
        let _ ← Parser.expect (.symbol .rightParen)
        if arcane && !(← Parser.check (.symbol .colon)) then
          Parser.endStatement
          return (⟨name, params, [], arcane⟩ : SpellDecl)
        return ⟨name, params, ← Parser.block (p i), arcane⟩) s'
        (Made (SpellDecl.ReadFrom d.text)) := by
    intro name s' hs' hname
    refine (expected hd hs' rfl).bind fun _ s₂ hs₂ _ => ?_
    have hfuel := hp.fuel.mono (Nat.le_succ k)
    refine (params hd hp.toExprsProceed hfuel hs₂ 0).bind fun ps s₃ hs₃ hps => ?_
    have hdecl : ∀ body : List Stmt, (∀ a ∈ body, a.All (Stmt.ReadFrom d.text)) →
        SpellDecl.ReadFrom d.text ⟨name, ps, body, arcane⟩ := by
      refine fun body hbody =>
        ⟨List.forall_mem_cons.2 ⟨hname, fun k hk => ?_⟩, fun e he => ?_, hbody⟩
      · obtain ⟨q, hq, hk⟩ := List.mem_flatMap.1 hk
        exact (hps q hq).marks k hk
      · obtain ⟨q, hq, he⟩ := List.mem_filterMap.1 he
        exact (hps q hq).default e he
    refine (expected hd hs₃ rfl).bind fun _ s₄ hs₄ _ => .check ?_
    split
    · exact (endStatement hd hs₄).bind fun _ _ hs₅ _ => .pure hs₅ (hdecl [] nofun)
    · exact (block hd hn hp hs₄).bind fun _ _ hs₅ hbody => .pure hs₅ (hdecl _ hbody)
  have hname : ∀ c, s₁.cur.kind = c → c.isSolid = true →
      Proceeds d k (fun _ : ι => identOf <$> Parser.advance) s₁
        (Made fun id => HasToken d.text id.mark) :=
    fun c hc hsolid => (advance hs₁ (hc ▸ isFlat_of_isSolid hsolid)).map fun _ _ _ ht =>
      ht ▸ hs₁.cur.ident_mark hc hsolid
  split
  · exact (hname _ ‹_› rfl).bind hrest
  · exact (hname _ ‹_› rfl).bind hrest
  · exact .stuck hd (fun _ => rfl) nofun

theorem spellStmt (hs : s.Within d.text (k + 1)) :
    Proceeds d k (fun i => do return Stmt.spell (← Parser.spell (p i) false)) s
      (Made (Stmt.All (Stmt.ReadFrom d.text))) :=
  (spell hd hn hp hs false).bind fun _ _ hs' hdecl => .pure hs' (.spell hdecl)

theorem arcaneSpell (hs : s.Within d.text (k + 1)) (hcur : s.cur.kind.isFlat = true) :
    Proceeds d k (fun i => Parser.arcaneSpell (p i)) s
      (Made (Stmt.All (Stmt.ReadFrom d.text))) := by
  refine (advance hs hcur).bind fun _ s₁ hs₁ _ => ?_
  refine (expected hd hs₁ rfl).bind fun _ s₂ hs₂ _ => ?_
  refine (skipNewlines (hp.fuel.mono (Nat.le_succ k)) hs₂).bind fun _ s₃ hs₃ _ => .check ?_
  split
  · exact .stuck hd (fun _ => rfl) nofun
  · obtain ⟨k, rfl⟩ := Nat.exists_eq_add_one.2 hs₃.pos
    refine (spell hd hn (hp.mono (Nat.le_succ k)) hs₃ true).bind fun _ _ hs₄ hdecl => ?_
    exact .pure (hs₄.mono (Nat.le_succ k)) (.spell hdecl)

theorem grimoire (hs : s.Within d.text (k + 1)) :
    Proceeds d k (fun i => Parser.grimoire (p i)) s (Made (Stmt.All (Stmt.ReadFrom d.text))) := by
  refine (accept hs rfl).bind fun arcane s₁ hs₁ _ => ?_
  refine (expect hd hs₁ rfl).bind fun _ s₂ hs₂ _ => ?_
  refine (named hd hs₂).bind fun name s₃ hs₃ hname => ?_
  have hrest : ∀ (parent : Option Ident) s', s'.Within d.text k →
      (∀ id ∈ parent, HasToken d.text id.mark) → Proceeds d k (fun i => do
        let body ← Parser.block (p i)
        return Stmt.grimoire (← Parser.grimoireOf name parent arcane body)) s'
        (Made (Stmt.All (Stmt.ReadFrom d.text))) := by
    intro parent s' hs' hparent
    refine (block hd hn hp hs').bind fun body s₄ hs₄ hbody => ?_
    refine (grimoireOf hn name parent arcane hbody hs₄).bind fun g _ hs₅ hg => .pure hs₅ ?_
    obtain ⟨rfl, rfl, hparted, hdecls⟩ := hg
    exact .grimoire hname.2 hparent hparted hdecls
  refine .ifAccepted hs₃ rfl (fun s₄ hs₄ => ?_) (hrest none s₃ hs₃ nofun)
  refine (named hd hs₄).bind fun parent s₅ hs₅ hparent => ?_
  refine (expected hd hs₅ rfl).bind fun _ s₆ hs₆ _ => hrest (Option.some parent) s₆ hs₆ ?_
  exact fun id hid => Option.some.inj hid ▸ hparent.2

/-- Conditions and the bodies behind them. -/
abbrev Guarded (text : String) (bs : List (Expr × List Stmt)) : Prop :=
  (∀ e ∈ bs.map (·.1), e.ReadFrom text) ∧
    ∀ a ∈ bs.flatMap (·.2), a.All (Stmt.ReadFrom text)

omit hd hn hp in
theorem Guarded.cons {text : String} {e : Expr} {body : List Stmt}
    {bs : List (Expr × List Stmt)} (he : e.ReadFrom text)
    (hbody : ∀ a ∈ body, a.All (Stmt.ReadFrom text)) (hbs : Guarded text bs) :
    Guarded text ((e, body) :: bs) :=
  ⟨List.forall_mem_cons.2 ⟨he, hbs.1⟩, List.forall_mem_append.2 ⟨hbody, hbs.2⟩⟩

theorem branches (hf : Enough d.spends k f) (hs : s.Within d.text k) :
    Proceeds d k (fun i => Parser.branches (p i) (f i)) s (Made (Guarded d.text)) := by
  induction k generalizing s f with
  | zero => exact absurd hs.pos (Nat.lt_irrefl 0)
  | succ k ih =>
    have hp' := hp.mono (Nat.le_succ k)
    obtain ⟨hspends, rfl⟩ | ⟨g, rfl, hg⟩ := hf.pred
    · exact .outOfFuel hspends
    · refine .ifAccept hs rfl (fun s₁ hs₁ => ?_) (.pure hs ⟨nofun, nofun⟩)
      refine (expr hd hp'.toExprsProceed hs₁).bind fun _ s₂ hs₂ he => ?_
      refine (block hd hn hp' hs₂).bind fun _ s₃ hs₃ hbody => ?_
      refine (ih hp' hg hs₃).bind fun _ s₄ hs₄ hbs => ?_
      exact .pure (hs₄.mono (Nat.le_succ k)) (.cons he hbody hbs)

theorem conditional (hs : s.Within d.text (k + 1)) (hcur : s.cur.kind = .keyword .if_) :
    Proceeds d k (fun i => Parser.conditional (p i)) s
      (Made (Stmt.All (Stmt.ReadFrom d.text))) := by
  refine (advance hs (hcur ▸ rfl)).bind fun _ s₁ hs₁ hword => ?_
  refine (expr hd hp.toExprsProceed hs₁).bind fun _ s₂ hs₂ he => ?_
  refine (block hd hn hp hs₂).bind fun _ s₃ hs₃ hbody => ?_
  refine (branches hd hn hp (hp.fuel.mono (Nat.le_succ k)) hs₃).bind fun _ s₄ hs₄ hbs => ?_
  refine (blockAfter hd hn hp hs₄ _).bind fun _ _ hs₅ hlast => .pure hs₅ (.plain ?_ ?_
    (List.forall_mem_singleton.2 (hword ▸ hs.cur.mark hcur rfl)) rfl)
  · exact List.forall_mem_append.2 ⟨List.forall_mem_cons.2 ⟨he, hbs.1⟩, nofun⟩
  · exact List.forall_mem_append.2 ⟨List.forall_mem_append.2 ⟨hbody, hbs.2⟩, hlast⟩

theorem whileLoop (hs : s.Within d.text (k + 1)) (hcur : s.cur.kind = .keyword .while_) :
    Proceeds d k (fun i => Parser.whileLoop (p i)) s
      (Made (Stmt.All (Stmt.ReadFrom d.text))) := by
  refine (advance hs (hcur ▸ rfl)).bind fun _ s₁ hs₁ hword => ?_
  refine (expr hd hp.toExprsProceed hs₁).bind fun _ s₂ hs₂ he => ?_
  refine (block hd hn hp hs₂).bind fun _ _ hs₃ hbody => .pure hs₃ (.plain ?_ hbody
    (List.forall_mem_singleton.2 (hword ▸ hs.cur.mark hcur rfl)) rfl)
  exact List.forall_mem_append.2 ⟨List.forall_mem_singleton.2 he, nofun⟩

theorem eachLoop (hs : s.Within d.text (k + 1)) (hcur : s.cur.kind = .keyword .for_) :
    Proceeds d k (fun i => Parser.eachLoop (p i)) s
      (Made (Stmt.All (Stmt.ReadFrom d.text))) := by
  refine (advance hs (hcur ▸ rfl)).bind fun _ s₁ hs₁ hword => ?_
  refine (pattern hd hp.toExprsProceed hs₁).bind fun _ s₂ hs₂ hpattern => ?_
  refine (expected hd hs₂ rfl).bind fun _ s₃ hs₃ _ => ?_
  refine (expr hd hp.toExprsProceed hs₃).bind fun _ s₄ hs₄ he => ?_
  refine (block hd hn hp hs₄).bind fun _ s₅ hs₅ hbody => ?_
  refine (blockAfter hd hn hp hs₅ _).bind fun _ _ hs₆ hlast => .pure hs₆ (.plain ?_
    (List.forall_mem_append.2 ⟨hbody, hlast⟩)
    (List.forall_mem_singleton.2 (hword ▸ hs.cur.mark hcur rfl)) rfl)
  exact List.forall_mem_cons.2 ⟨hpattern, List.forall_mem_singleton.2 he⟩

theorem cases (hf : Enough d.spends k f) (hs : s.Within d.text k) (default : Option (List Stmt))
    (hdefault : ∀ a ∈ default.getD [], a.All (Stmt.ReadFrom d.text)) :
    Proceeds d k (fun i => Parser.cases (p i) default (f i)) s fun r s' =>
      (Guarded d.text r.1 ∧ ∀ a ∈ r.2.getD [], a.All (Stmt.ReadFrom d.text)) ∧
        endsBlock s'.cur.kind = true := by
  induction k generalizing s f default with
  | zero => exact absurd hs.pos (Nat.lt_irrefl 0)
  | succ k ih =>
    have hp' := hp.mono (Nat.le_succ k)
    obtain ⟨hspends, rfl⟩ | ⟨g, rfl, hg⟩ := hf.pred
    · exact .outOfFuel hspends
    have hrest : ∀ {default : Option (List Stmt)} s', s'.Within d.text k →
        (∀ a ∈ default.getD [], a.All (Stmt.ReadFrom d.text)) →
        Proceeds d (k + 1) (fun i => Parser.cases (p i) default (g i)) s' fun r s' =>
          (Guarded d.text r.1 ∧ ∀ a ∈ r.2.getD [], a.All (Stmt.ReadFrom d.text)) ∧
            endsBlock s'.cur.kind = true :=
      fun s' hs' hdefault => (ih hp' hg hs' _ hdefault).mono (Nat.le_succ k)
    -- Of several defaults the last counts.
    have hlast : ∀ s', s'.Within d.text k → Proceeds d (k + 1)
        (fun i => do Parser.cases (p i) (Option.some (← Parser.block (p i))) (g i)) s'
        fun r s' => (Guarded d.text r.1 ∧ ∀ a ∈ r.2.getD [], a.All (Stmt.ReadFrom d.text)) ∧
          endsBlock s'.cur.kind = true :=
      fun s' hs' => (block hd hn hp' hs').bind fun body s'' hs'' hbody => hrest s'' hs'' hbody
    have htake : ∀ c, s.cur.kind = c → c.isFlat = true →
        Proceeds d k (fun _ : ι => Parser.advance) s Free :=
      fun c hc hflat => (advance hs (hc ▸ hflat)).imp (Nat.le_refl k) fun _ _ _ _ => trivial
    refine .look ?_
    split
    · exact (htake _ ‹_› rfl).bind fun _ s₁ hs₁ _ => hrest s₁ hs₁ hdefault
    · refine (htake _ ‹_› rfl).bind fun _ s₁ hs₁ _ => ?_
      refine .ifAccepted hs₁ rfl hlast ?_
      refine (expr hd hp'.toExprsProceed hs₁).bind fun _ s₂ hs₂ he => ?_
      refine (block hd hn hp' hs₂).bind fun _ s₃ hs₃ hbody => ?_
      exact (hrest s₃ hs₃ hdefault).bind fun _ _ hs₄ hr =>
        .pure hs₄ ⟨⟨.cons he hbody hr.1.1, hr.1.2⟩, hr.2⟩
    · exact (htake _ ‹_› rfl).bind fun _ s₁ hs₁ _ => hlast s₁ hs₁
    · exact .pure hs ⟨⟨⟨nofun, nofun⟩, hdefault⟩, by simp [‹s.cur.kind = _›, endsBlock]⟩
    · exact .pure hs ⟨⟨⟨nofun, nofun⟩, hdefault⟩, by simp [‹s.cur.kind = _›, endsBlock]⟩
    · exact .unexpected hd _

theorem matchStmt (hs : s.Within d.text (k + 1)) (hcur : s.cur.kind = .keyword .match_) :
    Proceeds d k (fun i => Parser.matchStmt (p i)) s
      (Made (Stmt.All (Stmt.ReadFrom d.text))) := by
  refine (advance hs (hcur ▸ rfl)).bind fun word s₁ hs₁ hword => ?_
  refine (expr hd hp.toExprsProceed hs₁).bind fun subject s₂ hs₂ he => ?_
  refine (expected hd hs₂ rfl).bind fun _ s₃ hs₃ _ => ?_
  refine (expected hd hs₃ rfl).bind fun _ s₄ hs₄ _ => ?_
  by_cases hk : s₄.cur.kind = .indent
  · obtain ⟨k, rfl⟩ := Nat.exists_eq_add_one.2 hs₄.pos
    have hp' := hp.mono (Nat.le_succ k)
    refine of_eq (fun i => ?_) ((enclosed hn hs₄ hk
      (fun s₅ hs₅ => cases hd hn hp' (hp'.fuel.mono (Nat.le_succ k)) hs₅ none nofun)
      (f := fun _ r => Pure.pure (Stmt.choose word.pos subject r.1 r.2))
      fun r _ hs₆ hr => .pure hs₆ (.plain ?_ (List.forall_mem_append.2 ⟨hr.1.2, hr.2⟩)
        (List.forall_mem_singleton.2 (hword ▸ hs.cur.mark hcur rfl)) rfl)).mono (Nat.le_succ k))
    · simp [Parser.expect, Parser.check, Bind.bind, EStateM.bind, hk]
    · exact List.forall_mem_append.2 ⟨List.forall_mem_cons.2 ⟨he, hr.1.1⟩, List.forall_mem_nil _⟩
  · refine .complains (e := ⟨s₄.cur.pos, .expected .indent s₄.cur⟩) hd
      (Diagnostic.quotes_of_ne fun _ h => by cases h) fun i => ?_
    simp only [Bind.bind, EStateM.bind, expect_of_ne hk]

theorem ensnares (hf : Enough d.spends k f) (hs : s.Within d.text k) :
    Proceeds d k (fun i => Parser.ensnares (p i) (f i)) s (Made fun hs =>
      (∀ k ∈ hs.flatMap Ensnare.marks, HasToken d.text k) ∧
        (∀ e ∈ hs.filterMap (·.condition), e.ReadFrom d.text) ∧
        ∀ a ∈ hs.flatMap (·.body), a.All (Stmt.ReadFrom d.text)) := by
  induction k generalizing s f with
  | zero => exact absurd hs.pos (Nat.lt_irrefl 0)
  | succ k ih =>
    have hp' := hp.mono (Nat.le_succ k)
    obtain ⟨hspends, rfl⟩ | ⟨g, rfl, hg⟩ := hf.pred
    · exact .outOfFuel hspends
    · refine .check ?_
      split
      · rename_i hk
        have hk' : s.cur.kind = .keyword .ensnare := by simpa using hk
        refine (advance hs (hk' ▸ rfl)).bind fun word s₁ hs₁ hword => .look ?_
        subst hword
        have hrest : ∀ (condition : Option Expr) s', s'.Within d.text k →
            (∀ e ∈ condition, e.ReadFrom d.text) → Proceeds d (k + 1) (fun i => do
              let binder ← Parser.binder
              let body ← Parser.block (p i)
              return (⟨s.cur.pos, condition, binder, body⟩ : Ensnare) ::
                (← Parser.ensnares (p i) (g i))) s' (Made fun hs =>
              (∀ k ∈ hs.flatMap Ensnare.marks, HasToken d.text k) ∧
                (∀ e ∈ hs.filterMap (·.condition), e.ReadFrom d.text) ∧
                ∀ a ∈ hs.flatMap (·.body), a.All (Stmt.ReadFrom d.text)) := by
          intro condition s' hs' hcondition
          refine (binder hd hs').bind fun _ s₂ hs₂ hbinder => ?_
          refine (block hd hn hp' hs₂).bind fun _ s₃ hs₃ hbody => ?_
          refine (ih hp' hg hs₃).bind fun more s₄ hs₄ hmore =>
            .pure (hs₄.mono (Nat.le_succ k)) ⟨?_, fun e he => ?_, ?_⟩
          · refine List.forall_mem_append.2 ⟨?_, hmore.1⟩
            exact List.forall_mem_cons.2 ⟨hs.cur.mark hk' rfl, hbinder⟩
          · obtain ⟨h, hh, he⟩ := List.mem_filterMap.1 he
            obtain rfl | hh := List.mem_cons.1 hh
            · exact hcondition e he
            · exact hmore.2.1 e (List.mem_filterMap.2 ⟨h, hh, he⟩)
          · exact List.forall_mem_append.2 ⟨hbody, hmore.2.2⟩
        split
        · exact hrest none s₁ hs₁ nofun
        · exact hrest none s₁ hs₁ nofun
        · exact (some (expr hd hp'.toExprsProceed hs₁)).bind hrest
      · exact .pure hs ⟨nofun, nofun, nofun⟩

theorem attemptStmt (hs : s.Within d.text (k + 1)) (hcur : s.cur.kind = .keyword .attempt) :
    Proceeds d k (fun i => Parser.attemptStmt (p i)) s
      (Made (Stmt.All (Stmt.ReadFrom d.text))) := by
  refine (advance hs (hcur ▸ rfl)).bind fun _ s₁ hs₁ hword => ?_
  refine (block hd hn hp hs₁).bind fun _ s₂ hs₂ hbody => ?_
  refine (ensnares hd hn hp (hp.fuel.mono (Nat.le_succ k)) hs₂).bind fun _ s₃ hs₃ hmore => ?_
  refine (blockAfter hd hn hp hs₃ _).bind fun _ _ hs₄ hlast => .pure hs₄ ?_
  refine .plain (List.forall_mem_append.2 ⟨hmore.2.1, nofun⟩) ?_
    (List.forall_mem_cons.2 ⟨hword ▸ hs.cur.mark hcur rfl, hmore.1⟩) rfl
  exact List.forall_mem_append.2 ⟨List.forall_mem_append.2 ⟨hbody, hmore.2.2⟩, hlast⟩

theorem withinStmt (hs : s.Within d.text (k + 1)) (hcur : s.cur.kind = .keyword .with_) :
    Proceeds d k (fun i => Parser.withinStmt (p i)) s
      (Made (Stmt.All (Stmt.ReadFrom d.text))) := by
  refine (advance hs (hcur ▸ rfl)).bind fun _ s₁ hs₁ hword => ?_
  refine (expr hd hp.toExprsProceed hs₁).bind fun _ s₂ hs₂ he => ?_
  refine (binder hd hs₂).bind fun _ s₃ hs₃ hid => ?_
  refine (block hd hn hp hs₃).bind fun _ _ hs₄ hbody => .pure hs₄ (.plain ?_ hbody
    (List.forall_mem_cons.2 ⟨hword ▸ hs.cur.mark hcur rfl, hid⟩) rfl)
  exact List.forall_mem_append.2 ⟨List.forall_mem_singleton.2 he, nofun⟩

theorem mainStmt (hs : s.Within d.text (k + 1)) (hcur : s.cur.kind = .keyword .main) :
    Proceeds d k (fun i => do
      let word ← Parser.advance
      return Stmt.main word.pos (← Parser.block (p i))) s
      (Made (Stmt.All (Stmt.ReadFrom d.text))) := by
  refine (advance hs (hcur ▸ rfl)).bind fun _ s₁ hs₁ hword => ?_
  exact (block hd hn hp hs₁).bind fun _ _ hs₂ hbody => .pure hs₂ (.plain nofun hbody
    (List.forall_mem_singleton.2 (hword ▸ hs.cur.mark hcur rfl)) rfl)

theorem stmtOf (hs : s.Within d.text (k + 1)) :
    Proceeds d k (fun i => Parser.stmtOf (p i)) s (Made (Stmt.All (Stmt.ReadFrom d.text))) := by
  have hline : ∀ {x : ι → Parse Stmt}, Proceeds d k x s (Bodiless d.text) →
      Proceeds d k x s (Made (Stmt.All (Stmt.ReadFrom d.text))) :=
    fun h => h.imp (Nat.le_refl k) fun _ _ _ ha => ha.2
  have he := hp.toExprsProceed
  refine .look ?_
  split
  · exact spellStmt hd hn hp hs
  · exact spellStmt hd hn hp hs
  · rename_i hk
    exact arcaneSpell hd hn hp hs (hk ▸ rfl)
  · exact grimoire hd hn hp hs
  · exact grimoire hd hn hp hs
  · exact conditional hd hn hp hs ‹_›
  · exact whileLoop hd hn hp hs ‹_›
  · exact eachLoop hd hn hp hs ‹_›
  · exact hline (returnStmt hd he hs ‹_›)
  · exact hline (importStmt hd hs ‹_›)
  · exact matchStmt hd hn hp hs ‹_›
  · exact attemptStmt hd hn hp hs ‹_›
  · exact hline (raiseStmt hd he hs ‹_›)
  · exact hline (wordStmt hd hs ‹_› rfl (fun _ => rfl) fun _ => ⟨rfl, rfl, rfl, rfl⟩)
  · exact hline (wordStmt hd hs ‹_› rfl (fun _ => rfl) fun _ => ⟨rfl, rfl, rfl, rfl⟩)
  · exact hline (wordStmt hd hs ‹_› rfl (fun _ => rfl) fun _ => ⟨rfl, rfl, rfl, rfl⟩)
  · exact hline (globalStmt hd he hs ‹_›)
  · exact withinStmt hd hn hp hs ‹_›
  · exact mainStmt hd hn hp hs ‹_›
  · exact hline (exprStmt hd he hs)

end Parts

end Fails

end Proceeds

end Spellbook.Parser
