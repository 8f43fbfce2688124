import Spellbook.Proofs.Program.Bare
import Spellbook.Proofs.Program.Parser.Mirrors.Expressions

/-! Statements of one line are read alike, whatever their end leads to. -/
namespace Spellbook

/-- The tokens that something with a body of its own starts with: a compound statement, or a case of
a match. -/
def Kind.opensBody : Kind → Bool
  | .keyword .spell | .keyword .init | .symbol .atSign | .keyword .arcane | .keyword .grim
  | .keyword .if_ | .keyword .while_ | .keyword .for_ | .keyword .match_ | .keyword .attempt
  | .keyword .with_ | .keyword .main | .keyword .case_ | .symbol .underscore => true
  | _ => false

namespace Parser

def ExprsMirror (x y : Parse Expr) : Prop :=
  ∀ (P : Pairing) n, Mirrors (P.rel n) (P.rel n) x y (Like Expr.bare)

/-- The ends of statements are met alike, and lead from the pairing to some relation. -/
structure Pairing.Ends (P : Pairing) (Post : State → State → Prop) : Prop where
  iff {s t : State} : P.rel 0 s t → endsStatement t.cur.kind = endsStatement s.cur.kind
  take : Mirrors (P.rel 0) Post endStatement endStatement (Like id)

/-! What can be written to -/

theorem bare_place? (e : Expr) : place? e.bare = (place? e).map Place.bare := by
  cases e <;> rfl

theorem bare_names? (es : List Expr) :
    names? (Expr.bareAll es) = (names? es).map (List.map Ident.bare) := by
  induction es with
  | nil => rfl
  | cons e es ih =>
    cases e with
    | name id =>
      simp only [Expr.bareAll, Expr.bare, names?, ih, Option.map_map]
      rfl
    | _ => rfl

theorem bare_target? (e : Expr) : target? e.bare = (target? e).map Target.bare := by
  cases e with
  | tuple pos es =>
    simp only [Expr.bare, target?, bare_names?, Option.map_map]
    rfl
  | _ => simp [Expr.bare, target?, place?, Target.bare, Place.bare]

theorem like_some {β : Type} {f : Expr → Option β} {bare : β → β}
    (hf : ∀ e : Expr, f e.bare = (f e).map bare) {e e' : Expr} (he : Like Expr.bare e e') :
    (f e = none ∧ f e' = none) ∨ ∃ b b', f e = some b ∧ f e' = some b' ∧ Like bare b b' := by
  have hmap : (f e').map bare = (f e).map bare := by rw [← hf, ← hf, he]
  cases h : f e with
  | none => exact .inl ⟨rfl, by simpa [h] using hmap⟩
  | some b =>
    rw [h, Option.map_some, Option.map_eq_some_iff] at hmap
    obtain ⟨b', hb', hlike⟩ := hmap
    exact .inr ⟨b, b', rfl, hb', hlike⟩

namespace Mirrors

variable {P : Pairing} {n f g : Nat} {Post : State → State → Prop} {p q : Parts}

theorem binder : Mirrors (P.rel n) (P.rel n) Parser.binder Parser.binder
    (Like (Option.map Ident.bare)) :=
  ifAccept (c := .keyword .as_) rfl (some ident) (.pure rfl)

theorem moreNames (hfg : f ≤ g) : Mirrors (P.rel n) (P.rel n) (Parser.moreNames f)
    (Parser.moreNames g) (Like (List.map Ident.bare)) := by
  induction f generalizing g with
  | zero => exact of_fails fails_outOfFuel
  | succ f ih =>
    obtain ⟨g, rfl⟩ := Nat.exists_eq_add_one.2 (Nat.lt_of_lt_of_le (Nat.succ_pos f) hfg)
    refine ifAccept (c := .symbol .comma) rfl ?_ (.pure rfl)
    refine ident.bind fun _ _ hid => (ih (Nat.le_of_succ_le_succ hfg)).bind fun _ _ hids => ?_
    exact .pure (by simp only [Like, List.map_cons, hid, hids])

theorem params {x y : Parse Expr} (he : ExprsMirror x y) (hfg : f ≤ g) (count : Nat) :
    Mirrors (P.rel (n + 1)) (P.rel (n + 1)) (Parser.params x f count) (Parser.params y g count)
      (Like (List.map Param.bare)) := by
  induction f generalizing g count with
  | zero => exact of_fails fails_outOfFuel
  | succ f ih =>
    obtain ⟨g, rfl⟩ := Nat.exists_eq_add_one.2 (Nat.lt_of_lt_of_le (Nat.succ_pos f) hfg)
    have hmore := ih (Nat.le_of_succ_le_succ hfg) (count + 1)
    have hdone : ∀ q q' : Param, Like Param.bare q q' → Mirrors (P.rel (n + 1)) (P.rel (n + 1))
        (do
          if ← Parser.accept (.symbol .comma) then return q :: (← Parser.params x f (count + 1))
          return [q])
        (do
          if ← Parser.accept (.symbol .comma) then return q' :: (← Parser.params y g (count + 1))
          return [q']) (Like (List.map Param.bare)) := by
      intro q q' hq
      refine ifAccept (c := .symbol .comma) rfl (hmore.bind fun _ _ hqs => .pure ?_) (.pure ?_)
      · simp only [Like, List.map_cons, hq, hqs]
      · simp only [Like, List.map_cons, List.map_nil, hq]
    refine (check rfl).bind fun a a' ha => ?_
    obtain rfl : a' = a := ha
    split
    · exact .pure rfl
    · split
      · exact of_fails ((fails_failHere _).bind _)
      · refine ident.bind fun name name' hname => ?_
        have hdefault : ∀ hint hint' : Option Ident, Like (Option.map Ident.bare) hint hint' →
            ∀ default default' : Option Expr, Like (Option.map Expr.bare) default default' →
            Like Param.bare ⟨name, hint, default⟩ ⟨name', hint', default'⟩ := by
          intro hint hint' hhint default default' hdefault
          simp only [Like, Param.bare, hname, hhint, hdefault]
        have hhinted : ∀ hint hint' : Option Ident, Like (Option.map Ident.bare) hint hint' →
            Mirrors (P.rel (n + 1)) (P.rel (n + 1))
              (do
                let default ← if ← Parser.accept (.symbol .assign) then Option.some <$> x
                  else Pure.pure none
                if ← Parser.accept (.symbol .comma) then
                  return (⟨name, hint, default⟩ : Param) :: (← Parser.params x f (count + 1))
                return [⟨name, hint, default⟩])
              (do
                let default ← if ← Parser.accept (.symbol .assign) then Option.some <$> y
                  else Pure.pure none
                if ← Parser.accept (.symbol .comma) then
                  return (⟨name', hint', default⟩ : Param) :: (← Parser.params y g (count + 1))
                return [⟨name', hint', default⟩]) (Like (List.map Param.bare)) := by
          intro hint hint' hhint
          refine ifAccept (c := .symbol .assign) rfl ?_ ?_
          · exact (some (he P _)).bind fun default default' h =>
              hdone _ _ (hdefault hint hint' hhint default default' h)
          · exact hdone _ _ (hdefault hint hint' hhint none none rfl)
        refine ifAccept (c := .symbol .colon) rfl ?_ ?_
        · exact (some ident).bind hhinted
        · exact hhinted none none rfl

theorem pattern (hfuel : p.fuel ≤ q.fuel) : Mirrors (P.rel n) (P.rel n) (Parser.pattern p)
    (Parser.pattern q) (Like Pattern.bare) := by
  refine ident.bind fun _ _ hid => (check rfl).bind fun a a' ha => ?_
  obtain rfl : a' = a := ha
  split
  · refine (moreNames hfuel).bind fun _ _ hids => .pure ?_
    simp only [Like, Pattern.bare, List.map_cons, hid, hids]
  · exact .pure (by simp only [Like, Pattern.bare, hid])

theorem isTaken_of_update? {k : Kind} {op : Update} (h : update? k = Option.some op) :
    k.isTaken 0 = true ∧ Lexer.nestingAfter 0 k = 0 := by
  unfold update? at h
  split at h <;> first | exact ⟨rfl, rfl⟩ | cases h

section Ends

variable (hends : P.Ends Post)

include hends

theorem lookEnd {α : Type} {V : α → α → Prop} {Post' : State → State → Prop}
    {k l : Bool → Parse α} (h : ∀ b, Mirrors (P.rel 0) Post' (k b) (l b) V) :
    Mirrors (P.rel 0) Post' (Parser.cur >>= fun c => k (endsStatement c.kind))
      (Parser.cur >>= fun c => l (endsStatement c.kind)) V := by
  intro s t hst a s' hok
  have hend := hends.iff hst
  obtain ⟨b, t', hl, hb, hpost⟩ := h _ s t hst a s' hok
  refine ⟨b, t', ?_, hb, hpost⟩
  show l (endsStatement t.cur.kind) t = .ok b t'
  rw [hend, hl]

theorem wordStmt {c : Kind} (hc : c.isTaken 0 = true) (hn : Lexer.nestingAfter 0 c = 0)
    {make : Pos → Stmt} (hmake : ∀ pos pos', Like Stmt.bare (make pos) (make pos')) :
    Mirrors (P.at 0 c) Post (Parser.wordStmt make) (Parser.wordStmt make) (Like Stmt.bare) := by
  refine (advance hc).bind fun _ _ _ => ?_
  rw [hn]
  exact hends.take.bind fun _ _ _ => .pure (hmake _ _)

theorem importStmt : Mirrors (P.at 0 (.keyword .import_)) Post Parser.importStmt Parser.importStmt
    (Like Stmt.bare) := by
  refine (advance rfl).bind fun _ _ _ => (expect rfl).bind fun c c' hc => ?_
  refine binder.bind fun _ _ hid => hends.take.bind fun _ _ _ => .pure ?_
  simp only [Like, Stmt.bare, hid, Token.literal_of_like hc, Token.lexeme_of_like hc]

theorem globalStmt (hfuel : p.fuel ≤ q.fuel) : Mirrors (P.at 0 (.keyword .global)) Post
    (Parser.globalStmt p) (Parser.globalStmt q) (Like Stmt.bare) := by
  refine (advance rfl).bind fun _ _ _ => ident.bind fun _ _ hid => ?_
  refine (moreNames hfuel).bind fun _ _ hids => hends.take.bind fun _ _ _ => .pure ?_
  simp only [Like, Stmt.bare, List.map_cons, hid, hids]

variable (he : ExprsMirror p.expr q.expr)

include he

theorem moreExprs (hfg : f ≤ g) : Mirrors (P.rel 0) (P.rel 0) (Parser.moreExprs p.expr f)
    (Parser.moreExprs q.expr g) (Like Expr.bareAll) := by
  induction f generalizing g with
  | zero => exact of_fails fails_outOfFuel
  | succ f ih =>
    obtain ⟨g, rfl⟩ := Nat.exists_eq_add_one.2 (Nat.lt_of_lt_of_le (Nat.succ_pos f) hfg)
    refine ifAccept (c := .symbol .comma) rfl ?_ (.pure rfl)
    refine lookEnd hends
      (k := fun b => do
        if b || (← Parser.check (.symbol .assign)) then return []
        return (← p.expr) :: (← Parser.moreExprs p.expr f))
      (l := fun b => do
        if b || (← Parser.check (.symbol .assign)) then return []
        return (← q.expr) :: (← Parser.moreExprs q.expr g)) fun b => ?_
    refine (check rfl).bind fun a a' ha => ?_
    obtain rfl : a' = a := ha
    split
    · exact .pure rfl
    · refine (he P 0).bind fun _ _ hfirst => ?_
      refine (ih (Nat.le_of_succ_le_succ hfg)).bind fun _ _ hmore => .pure ?_
      simp only [Like, Expr.bareAll, hfirst, hmore]

variable (hfuel : p.fuel ≤ q.fuel)

include hfuel

theorem exprList : Mirrors (P.rel 0) (P.rel 0) (Parser.exprList p) (Parser.exprList q)
    (Like Expr.bare) := by
  refine (he P 0).bind fun _ _ hfirst => (check rfl).bind fun a a' ha => ?_
  obtain rfl : a' = a := ha
  split
  · refine (moreExprs hends he hfuel).bind fun _ _ hmore => .pure ?_
    simp only [Like, Expr.bare, Expr.bareAll, hfirst, hmore]
  · exact .pure hfirst

theorem returnStmt : Mirrors (P.at 0 (.keyword .return_)) Post (Parser.returnStmt p)
    (Parser.returnStmt q) (Like Stmt.bare) := by
  refine (advance rfl).bind fun word word' _ => ?_
  have hdone : ∀ value value' : Option Expr, Like (Option.map Expr.bare) value value' →
      Mirrors (P.rel 0) Post (do endStatement; return Stmt.give word.pos value)
        (do endStatement; return Stmt.give word'.pos value') (Like Stmt.bare) := by
    intro value value' hvalue
    exact hends.take.bind fun _ _ _ => .pure (Stmt.bare_give_congr hvalue)
  refine lookEnd hends
    (k := fun b => do
      let value ← if b then Pure.pure none else Option.some <$> Parser.exprList p
      endStatement
      return Stmt.give word.pos value)
    (l := fun b => do
      let value ← if b then Pure.pure none else Option.some <$> Parser.exprList q
      endStatement
      return Stmt.give word'.pos value) fun b => ?_
  cases b with
  | true => exact hdone none none rfl
  | false => exact (some (exprList hends he hfuel)).bind hdone

omit hfuel in
theorem raiseStmt : Mirrors (P.at 0 (.keyword .raise)) Post
    (do let word ← Parser.advance; let value ← p.expr; endStatement; return .raise word.pos value)
    (do let word ← Parser.advance; let value ← q.expr; endStatement; return .raise word.pos value)
    (Like Stmt.bare) := by
  refine (advance rfl).bind fun _ _ _ => (he P 0).bind fun _ _ hvalue => ?_
  exact hends.take.bind fun _ _ _ => .pure (Stmt.bare_raise_congr hvalue)

theorem exprStmt : Mirrors (P.rel 0) Post (Parser.exprStmt p) (Parser.exprStmt q)
    (Like Stmt.bare) := by
  refine (exprList hends he hfuel).bind fun left left' hleft => ?_
  have hplain : Mirrors (P.rel 0) Post (do endStatement; return Stmt.expr left)
      (do endStatement; return Stmt.expr left') (Like Stmt.bare) :=
    hends.take.bind fun _ _ _ => .pure (Stmt.bare_expr_congr hleft)
  have hvalue : ∀ {make make' : Expr → Stmt},
      (∀ e e', Like Expr.bare e e' → Like Stmt.bare (make e) (make' e')) →
      Mirrors (P.rel 0) Post (do let value ← Parser.exprList p; endStatement; return make value)
        (do let value ← Parser.exprList q; endStatement; return make' value) (Like Stmt.bare) :=
    fun hmake => (exprList hends he hfuel).bind fun e e' h =>
      hends.take.bind fun _ _ _ => .pure (hmake e e' h)
  refine lookAny (fun c c' hc hlike => ?_) fun c c' hc hc' => ?_
  · rw [Token.kind_of_like hlike]
    by_cases hassign : c.kind = .symbol .assign
    · simp only [hassign, if_true]
      refine (advance rfl).bind fun _ _ _ => ?_
      obtain ⟨hnone, -⟩ | ⟨target, target', htarget, htarget', h⟩ := like_some bare_target? hleft
      · simp only [hnone]
        exact of_fails (fails_failAt _ _)
      · simp only [htarget, htarget']
        exact hvalue fun e e' he => by simp only [Like, Stmt.bare, h, he]
    · simp only [hassign, if_false]
      cases hupdate : update? c.kind with
      | none => exact hplain.before fun _ _ hst => hst.1
      | some op =>
        obtain ⟨htaken, hn⟩ := isTaken_of_update? hupdate
        dsimp only
        refine (advance htaken).bind fun _ _ _ => ?_
        rw [hn]
        obtain ⟨hnone, -⟩ | ⟨place, place', hplace, hplace', h⟩ := like_some bare_place? hleft
        · simp only [hnone]
          exact of_fails (fails_failAt _ _)
        · simp only [hplace, hplace']
          exact hvalue fun e e' he => by simp only [Like, Stmt.bare, h, he]
  · have hother : ∀ k : Kind, k.isSolid = false → k ≠ .symbol .assign ∧ update? k = none := by
      intro k hk
      rcases Kind.of_not_isSolid hk with rfl | rfl | rfl | rfl | rfl <;> exact ⟨by simp, rfl⟩
    simp only [(hother _ hc).1, (hother _ hc').1, (hother _ hc).2, (hother _ hc').2, if_false]
    exact hplain

theorem lineStmt : Mirrors (fun s t => P.rel 0 s t ∧ s.cur.kind.opensBody = false) Post
    (Parser.stmtOf p) (Parser.stmtOf q) (Like Stmt.bare) := by
  refine lookIf (C := fun k => k.opensBody = false) (fun c c' hline hc hlike => ?_)
    fun c c' hc hc' => ?_
  · rw [Token.kind_of_like hlike]
    split
    case h_20 => exact (exprStmt hends he hfuel).before fun _ _ hst => hst.1
    all_goals
      rename_i hk
      simp only [hk]
    case h_9 => exact returnStmt hends he hfuel
    case h_10 => exact importStmt hends
    case h_13 => exact raiseStmt hends he
    case h_14 => exact wordStmt hends rfl rfl fun _ _ => rfl
    case h_15 => exact wordStmt hends rfl rfl fun _ _ => rfl
    case h_16 => exact wordStmt hends rfl rfl fun _ _ => rfl
    case h_17 => exact globalStmt hends hfuel
    all_goals simp [hk, Kind.opensBody] at hline
  · rcases Kind.of_not_isSolid hc with hk | hk | hk | hk | hk <;>
      rcases Kind.of_not_isSolid hc' with hk' | hk' | hk' | hk' | hk' <;>
      simp only [hk, hk'] <;> exact exprStmt hends he hfuel

end Ends

end Mirrors

end Parser

end Spellbook
