import Spellbook.Proofs.Program.Parser.Mirrors.Bodies

/-! Compound statements are read alike if their parts are. -/
namespace Spellbook

/-! What the body of a grimoire holds -/

def Parser.Member.bare : Parser.Member → Parser.Member
  | .init decl => .init decl.bare
  | .method decl => .method decl.bare
  | .idle => .idle
  | .stray => .stray

theorem Parser.Member.ofStmt_bare (s : Stmt) : ofStmt s.bare = (ofStmt s).bare := by
  cases s with
  | expr e => cases e <;> rfl
  | spell decl =>
    obtain ⟨name, params, body, arcane⟩ := decl
    simp only [Stmt.bare, ofStmt, SpellDecl.bare, Ident.bare]
    split <;> simp only [Member.bare, SpellDecl.bare, Ident.bare]
  | _ => rfl

namespace Parser

/-- A line below the colon of a body: if a block starts here, its statements are paired. -/
def BodyPairing.below (P : BodyPairing) (s t : State) : Prop :=
  P.rel 0 s t ∧ (s.cur.kind = .indent → P.rel 0 s.next t.next)

/-- The parts of statements are read alike. How a marked body is read is told apart: a block is read
alike, and there are no cases of a match. -/
structure PartsEcho (P : BodyPairing) (p q : Parts) : Prop where
  fuel : p.fuel ≤ q.fuel
  expr : ExprsMirror p.expr q.expr
  stmt : Echoes (P.rel 0) (P.rel 0) p.stmt q.stmt Stmt.bare
  block : MirrorsClean P.marked (P.rel 0) (Parser.block p) (Parser.block q) Stmt.bareAll
  cases : ∀ s t, P.marked s t → ∀ r s', (do
    let _ ← expect (.symbol .colon)
    let _ ← expect .newline
    let _ ← expect .indent
    Parser.cases p none p.fuel : Parse _) s ≠ .ok r s'

namespace Echoes

variable {α β α' : Type} {P : BodyPairing} {p q : Parts} {n f g : Nat}

theorem expr {x y : Parse Expr} (h : ExprsMirror x y) :
    Echoes (P.rel n) (P.rel n) x y Expr.bare :=
  of_mirrors (fun Q _ => h Q n) P.ends

theorem some {x y : Parse α} {bare : α → α'} {Pre Post : State → State → Prop}
    (hx : Echoes Pre Post x y bare) :
    Echoes Pre Post (Option.some <$> x) (Option.some <$> y) (Option.map bare) :=
  hx.map fun a b hab => by simp [Like, hab]

theorem binder : Echoes (P.rel n) (P.rel n) Parser.binder Parser.binder (Option.map Ident.bare) :=
  of_mirrors (fun _ _ => Mirrors.binder) P.ends

theorem colon {x y : Parse α} {bare : α → α'} (hx : Echoes P.opened (P.rel 0) x y bare)
    (hmarked : MirrorsClean P.marked (P.rel 0) (Parser.expect (.symbol .colon) >>= fun _ => x)
      (Parser.expect (.symbol .colon) >>= fun _ => y) bare) :
    Echoes (P.rel 0) (P.rel 0) (Parser.expect (.symbol .colon) >>= fun _ => x)
      (Parser.expect (.symbol .colon) >>= fun _ => y) bare := by
  refine ⟨(Keeps.expect _).silent.bind fun _ => hx.silent, fun s t hst a s' hok hfound => ?_⟩
  have hexpect : ∀ u : State, u.cur.kind = .symbol .colon →
      Parser.expect (.symbol .colon) u = .ok u.cur u.next := by
    intro u hu
    simp [Parser.expect, Parser.check, Bind.bind, EStateM.bind, hu, advance_eq]
  obtain ⟨c, s₁, hcolon, hrest⟩ := bind_eq_ok.1 hok
  by_cases hs : s.cur.kind = .symbol .colon
  · obtain hm | hopened := P.body hst hs
    · exact hmarked s t hm a s' hok hfound
    · rw [hexpect s hs] at hcolon
      cases hcolon
      obtain ⟨b, t', hy, hb, hpost⟩ := hx.mirrors _ _ hopened a s' hrest hfound
      have ht : t.cur.kind = .symbol .colon := (Token.kind_of_like (P.same hst)).trans hs
      exact ⟨b, t', bind_eq_ok.2 ⟨_, _, hexpect t ht, hy⟩, hb, hpost⟩
  · refine absurd hcolon ?_
    simp only [Parser.expect, Parser.check, Bind.bind, EStateM.bind, beq_iff_eq, hs, if_false]
    exact fails_unexpected _ _ _ _

theorem openLine : Echoes (fun s t => P.opened s t ∧ s.cur.kind = .newline) P.below Parser.advance
    Parser.advance Token.bare := by
  refine of_keeps .advance ?_
  rintro s t ⟨hst, hkind⟩ a s' hok
  rw [advance_eq] at hok
  cases hok
  exact ⟨t.cur, t.next, advance_eq t, P.same hst.1, P.pass hst.1 (.inl hkind), hst.2 hkind⟩

theorem openBlock : Echoes (fun s t => P.below s t ∧ s.cur.kind = .indent) (P.rel 0) Parser.advance
    Parser.advance Token.bare := by
  refine of_keeps .advance ?_
  rintro s t ⟨hst, hkind⟩ a s' hok
  rw [advance_eq] at hok
  cases hok
  exact ⟨t.cur, t.next, advance_eq t, P.same hst.1, hst.2 hkind⟩

theorem each {Post : State → State → Prop} {bare : α → α'} {xs ys : List α}
    (hxy : ys.map bare = xs.map bare) {k l : α → PUnit → Parse (ForInStep PUnit)}
    (h : ∀ a b, Like bare a b → Echoes Post Post (k a .unit) (l b .unit) id) :
    Echoes Post Post (forIn xs .unit k) (forIn ys .unit l) id := by
  induction xs generalizing ys with
  | nil =>
    obtain rfl : ys = [] := List.map_eq_nil_iff.1 hxy
    exact pure rfl
  | cons x xs ih =>
    cases ys with
    | nil => cases hxy
    | cons y ys =>
      obtain ⟨hhead, htail⟩ := List.cons.inj hxy
      rw [List.forIn_cons, List.forIn_cons]
      refine (h x y hhead).bind fun r r' hr => ?_
      obtain rfl : r' = r := hr
      cases r' with
      | done => exact pure rfl
      | yield => exact ih htail

section Parts

variable (h : PartsEcho P p q)

include h

theorem blockStatements : Echoes (P.rel 0) (P.rel 0)
    (Parser.statements p.stmt endsBlock isSeparator p.fuel)
    (Parser.statements q.stmt endsBlock isSeparator q.fuel) Stmt.bareAll := by
  refine statements h.stmt _ _ (fun k hk => ?_) h.fuel
  unfold isSeparator at hk
  split at hk
  · exact .inl rfl
  · exact .inr (.inr rfl)
  · cases hk

theorem block : Echoes (P.rel 0) (P.rel 0) (Parser.block p) (Parser.block q) Stmt.bareAll := by
  refine colon ?_ h.block
  have hinside : Echoes (P.rel 0) (P.rel 0)
      (do
        let body ← Parser.statements p.stmt endsBlock isSeparator p.fuel
        let _ ← Parser.accept .dedent
        return body)
      (do
        let body ← Parser.statements q.stmt endsBlock isSeparator q.fuel
        let _ ← Parser.accept .dedent
        return body) Stmt.bareAll := by
    refine (blockStatements h).bind fun body body' hbody => ?_
    exact dedent.bind fun _ _ _ => .pure hbody
  refine checked (fun _ _ hst => hst.1) (openLine.bind fun _ _ _ => ?_) ?_
  · refine checked (fun _ _ hst => hst.1) (openBlock.bind fun _ _ _ => hinside) ?_
    exact of_fails ((fails_failHere _).bind _)
  · refine before (h.stmt.bind fun a b hab => .pure ?_) fun _ _ hst => hst.1
    simp only [Like, Stmt.bareAll, hab]

theorem blockAfter {k : Keyword} : Echoes (P.rel 0) (P.rel 0) (Parser.blockAfter p k)
    (Parser.blockAfter q k) Stmt.bareBlock := by
  refine ifAccept (c := .keyword k) rfl ((block h).map fun body body' hbody => ?_) (.pure rfl)
  simp only [Like, Stmt.bareBlock, hbody]

theorem spellBody (arcane : Bool) {name name' : Ident} (hname : Like Ident.bare name name') :
    Echoes (P.rel 0) (P.rel 0)
      (do
        let _ ← Parser.expect (.symbol .leftParen)
        let params ← params p.expr p.fuel 0
        let _ ← Parser.expect (.symbol .rightParen)
        if arcane && !(← Parser.check (.symbol .colon)) then
          endStatement
          return (⟨name, params, [], arcane⟩ : SpellDecl)
        return ⟨name, params, ← Parser.block p, arcane⟩)
      (do
        let _ ← Parser.expect (.symbol .leftParen)
        let params ← params q.expr q.fuel 0
        let _ ← Parser.expect (.symbol .rightParen)
        if arcane && !(← Parser.check (.symbol .colon)) then
          endStatement
          return (⟨name', params, [], arcane⟩ : SpellDecl)
        return ⟨name', params, ← Parser.block q, arcane⟩) SpellDecl.bare := by
  refine (expect rfl).bind fun _ _ _ => ?_
  have hparams : Echoes (P.rel 1) (P.rel 1) (params p.expr p.fuel 0) (params q.expr q.fuel 0)
      (List.map Param.bare) :=
    of_mirrors (fun _ _ => Mirrors.params h.expr h.fuel 0) P.ends
  refine hparams.bind fun params params' hparams => (expect rfl).bind fun _ _ _ => ?_
  refine check.bind fun b b' hb => ?_
  obtain rfl : b' = b := hb
  split
  · refine (of_mirrors (fun _ hQ => hQ.take) P.ends).bind fun _ _ _ => .pure ?_
    simp only [Like, SpellDecl.bare, hname, hparams]
  · refine (block h).bind fun body body' hbody => .pure ?_
    simp only [Like, SpellDecl.bare, hname, hparams, hbody]

theorem spell (arcane : Bool) : Echoes (P.rel 0) (P.rel 0) (Parser.spell p arcane)
    (Parser.spell q arcane) SpellDecl.bare := by
  refine (accept (c := .keyword .spell) rfl rfl).bind fun _ _ _ => look fun c c' hlike => ?_
  have hnamed : c.kind.isTaken 0 = true → Lexer.nestingAfter 0 c.kind = 0 →
      Echoes (P.at 0 c.kind) (P.rel 0) (identOf <$> Parser.advance) (identOf <$> Parser.advance)
        Ident.bare := by
    intro htaken hn
    refine Echoes.map (f := Token.bare) ?_ fun _ _ hc => like_identOf hc
    have htake := advance (P := P) htaken
    rwa [hn] at htake
  rw [Token.kind_of_like hlike]
  split
  · rename_i hk
    simp only [hk] at hnamed ⊢
    exact (hnamed rfl rfl).bind fun _ _ hname => spellBody h arcane hname
  · rename_i hk
    simp only [hk] at hnamed ⊢
    exact (hnamed rfl rfl).bind fun _ _ hname => spellBody h arcane hname
  · exact of_fails ((fails_unexpected _).bind _)

theorem arcaneSpell : Echoes (P.at 0 (.symbol .atSign)) (P.rel 0) (Parser.arcaneSpell p)
    (Parser.arcaneSpell q) Stmt.bare := by
  refine (advance rfl).bind fun _ _ _ => (expect rfl).bind fun _ _ _ => ?_
  refine (skipNewlines h.fuel).bind fun _ _ _ => check.bind fun b b' hb => ?_
  obtain rfl : b' = b := hb
  split
  · exact of_fails ((fails_unexpected _).bind _)
  · refine (spell h true).bind fun decl decl' hdecl => .pure ?_
    simp only [Like, Stmt.bare, hdecl]

omit h in
/-- What does not belong in a grimoire is reported. If nothing is, the declarations are the same. -/
theorem grimoireOf {Post : State → State → Prop} (arcane : Bool) {name name' : Ident}
    (hname : Like Ident.bare name name') {parent parent' : Option Ident}
    (hparent : Like (Option.map Ident.bare) parent parent') {body body' : List Stmt}
    (hbody : Like Stmt.bareAll body body') :
    Echoes Post Post (Parser.grimoireOf name parent arcane body)
      (Parser.grimoireOf name' parent' arcane body') GrimoireDecl.bare := by
  have hmembers : (body'.map Member.ofStmt).map Member.bare =
      (body.map Member.ofStmt).map Member.bare := by
    simp only [Like, Stmt.bareAll_eq_map] at hbody
    have hmap := congrArg (List.map Member.ofStmt) hbody
    simpa only [List.map_map, Function.comp_def, Member.ofStmt_bare] using hmap
  have hkept : ∀ {pick : Member → Option SpellDecl},
      (∀ m, pick m.bare = (pick m).map SpellDecl.bare) → ∀ ms ms' : List Member,
      ms'.map Member.bare = ms.map Member.bare →
      (ms'.filterMap pick).map SpellDecl.bare = (ms.filterMap pick).map SpellDecl.bare := by
    intro pick hpick ms ms' hms
    have hfilter := congrArg (List.filterMap pick) hms
    rw [List.filterMap_map, List.filterMap_map] at hfilter
    rw [List.map_filterMap, List.map_filterMap]
    simpa only [Function.comp_def, hpick] using hfilter
  refine (each hmembers fun m m' hm => ?_).bind fun _ _ _ => .pure ?_
  · cases m with
    | stray => exact of_loud (.report _ (Keeps.pure _).silent)
    | _ => cases m' <;> first | exact pure rfl | cases hm
  · simp only [Like, GrimoireDecl.bare, hname, hparent, SpellDecl.bareInit_eq_map,
      SpellDecl.bareAll_eq_map, ← List.getLast?_map, GrimoireDecl.mk.injEq, true_and, and_true]
    refine ⟨congrArg List.getLast? (hkept (fun m => ?_) _ _ hmembers),
      hkept (fun m => ?_) _ _ hmembers⟩
    · cases m <;> rfl
    · cases m <;> rfl

theorem grimoire : Echoes (P.rel 0) (P.rel 0) (Parser.grimoire p) (Parser.grimoire q)
    Stmt.bare := by
  refine (accept (c := .keyword .arcane) rfl rfl).bind fun arcane arcane' harcane => ?_
  obtain rfl : arcane' = arcane := harcane
  refine (expect rfl).bind fun _ _ _ => ident.bind fun name name' hname => ?_
  have hbody : ∀ parent parent' : Option Ident, Like (Option.map Ident.bare) parent parent' →
      Echoes (P.rel 0) (P.rel 0)
        (do
          let body ← Parser.block p
          return Stmt.grimoire (← Parser.grimoireOf name parent arcane' body))
        (do
          let body ← Parser.block q
          return Stmt.grimoire (← Parser.grimoireOf name' parent' arcane' body)) Stmt.bare := by
    intro parent parent' hparent
    refine (block h).bind fun body body' hbody => ?_
    refine (grimoireOf arcane' hname hparent hbody).bind fun decl decl' hdecl => .pure ?_
    simp only [Like, Stmt.bare, hdecl]
  refine ifAccept (c := .symbol .leftParen) rfl ?_ (hbody none none rfl)
  refine ident.bind fun parent parent' hparent => (expect rfl).bind fun _ _ _ => ?_
  exact hbody (.some parent) (.some parent') (by simp only [Like, Option.map_some, hparent])

theorem branches (hfg : f ≤ g) : Echoes (P.rel 0) (P.rel 0) (Parser.branches p f)
    (Parser.branches q g) Stmt.bareBranches := by
  induction f generalizing g with
  | zero => exact of_fails fails_outOfFuel
  | succ f ih =>
    obtain ⟨g, rfl⟩ := Nat.exists_eq_add_one.2 (Nat.lt_of_lt_of_le (Nat.succ_pos f) hfg)
    refine ifAccept (c := .keyword .otherwise) rfl ?_ (.pure rfl)
    refine (expr h.expr).bind fun _ _ he => (block h).bind fun _ _ hbody => ?_
    refine (ih (Nat.le_of_succ_le_succ hfg)).bind fun _ _ hmore => .pure ?_
    simp only [Like, Stmt.bareBranches, he, hbody, hmore]

theorem conditional : Echoes (P.at 0 (.keyword .if_)) (P.rel 0) (Parser.conditional p)
    (Parser.conditional q) Stmt.bare := by
  refine (advance rfl).bind fun _ _ _ => (expr h.expr).bind fun _ _ he => ?_
  refine (block h).bind fun _ _ hbody => (branches h h.fuel).bind fun _ _ hbranches => ?_
  refine (blockAfter h).bind fun _ _ hotherwise => .pure ?_
  simp only [Like, Stmt.bare, he, hbody, hbranches, hotherwise]

theorem whileLoop : Echoes (P.at 0 (.keyword .while_)) (P.rel 0) (Parser.whileLoop p)
    (Parser.whileLoop q) Stmt.bare := by
  refine (advance rfl).bind fun _ _ _ => (expr h.expr).bind fun _ _ he => ?_
  refine (block h).bind fun _ _ hbody => .pure ?_
  simp only [Like, Stmt.bare, he, hbody]

theorem eachLoop : Echoes (P.at 0 (.keyword .for_)) (P.rel 0) (Parser.eachLoop p)
    (Parser.eachLoop q) Stmt.bare := by
  refine (advance rfl).bind fun _ _ _ => ?_
  have hpattern : Echoes (P.rel 0) (P.rel 0) (Parser.pattern p) (Parser.pattern q) Pattern.bare :=
    of_mirrors (fun _ _ => Mirrors.pattern h.fuel) P.ends
  refine hpattern.bind fun _ _ hpattern => (expect rfl).bind fun _ _ _ => ?_
  refine (expr h.expr).bind fun _ _ he => (block h).bind fun _ _ hbody => ?_
  refine (blockAfter h).bind fun _ _ hotherwise => .pure ?_
  simp only [Like, Stmt.bare, hpattern, he, hbody, hotherwise]

theorem cases (hfg : f ≤ g) {default default' : Option (List Stmt)}
    (hdefault : Like Stmt.bareBlock default default') :
    Echoes (P.rel 0) (P.rel 0) (Parser.cases p default f) (Parser.cases q default' g)
      (Prod.map Stmt.bareBranches Stmt.bareBlock) := by
  induction f generalizing g default default' with
  | zero => exact of_fails fails_outOfFuel
  | succ f ih =>
    obtain ⟨g, rfl⟩ := Nat.exists_eq_add_one.2 (Nat.lt_of_lt_of_le (Nat.succ_pos f) hfg)
    have hmore := @ih g (Nat.le_of_succ_le_succ hfg)
    have hlast : Echoes (P.rel 0) (P.rel 0)
        (do Parser.cases p (Option.some (← Parser.block p)) f)
        (do Parser.cases q (Option.some (← Parser.block q)) g)
        (Prod.map Stmt.bareBranches Stmt.bareBlock) :=
      (block h).bind fun body body' hbody => hmore (by simp only [Like, Stmt.bareBlock, hbody])
    refine look fun c c' hlike => ?_
    rw [Token.kind_of_like hlike]
    split
    · rename_i hk
      exact (pass (.inl hk)).bind fun _ _ _ => hmore hdefault
    · rename_i hk
      rw [hk]
      refine (advance rfl).bind fun _ _ _ => ifAccept (c := .symbol .underscore) rfl hlast ?_
      refine (expr h.expr).bind fun _ _ he => (block h).bind fun _ _ hbody => ?_
      refine (hmore hdefault).bind fun r r' hr => .pure ?_
      simp only [Like, Prod.map, Prod.mk.injEq] at hr ⊢
      simp only [Stmt.bareBranches, he, hbody, hr, and_self]
    · rename_i hk
      rw [hk]
      exact (advance rfl).bind fun _ _ _ => hlast
    · refine before (pure ?_) fun _ _ hst => hst.1
      simp only [Like, Prod.map, hdefault]
    · refine before (pure ?_) fun _ _ hst => hst.1
      simp only [Like, Prod.map, hdefault]
    · exact of_fails (fails_unexpected _)

theorem matchStmt : Echoes (P.at 0 (.keyword .match_)) (P.rel 0) (Parser.matchStmt p)
    (Parser.matchStmt q) Stmt.bare := by
  refine (advance rfl).bind fun _ _ _ => (expr h.expr).bind fun _ _ he => ?_
  refine colon ?_ fun s t hst a s' hok _ => ?_
  · have hline : Echoes P.opened P.below (Parser.expect .newline) (Parser.expect .newline)
        Token.bare := checked (fun _ _ hst => hst.1) openLine (of_fails (fails_unexpected _))
    have hindent : Echoes P.below (P.rel 0) (Parser.expect .indent) (Parser.expect .indent)
        Token.bare := checked (fun _ _ hst => hst.1) openBlock (of_fails (fails_unexpected _))
    refine hline.bind fun _ _ _ => hindent.bind fun _ _ _ => ?_
    refine (cases h h.fuel rfl).bind fun r r' hr => dedent.bind fun _ _ _ => .pure ?_
    simp only [Like, Prod.map, Prod.mk.injEq] at hr
    simp only [Like, Stmt.bare, he, hr]
  · -- Where the body is marked there are no cases, so that the match is not read at all.
    obtain ⟨_, s₁, hcolon, hok⟩ := bind_eq_ok.1 hok
    obtain ⟨_, s₂, hline, hok⟩ := bind_eq_ok.1 hok
    obtain ⟨_, s₃, hindent, hok⟩ := bind_eq_ok.1 hok
    obtain ⟨r, s₄, hcases, -⟩ := bind_eq_ok.1 hok
    exact absurd (bind_eq_ok.2 ⟨_, _, hcolon, bind_eq_ok.2 ⟨_, _, hline,
      bind_eq_ok.2 ⟨_, _, hindent, hcases⟩⟩⟩) (h.cases s t hst r s₄)

theorem ensnares (hfg : f ≤ g) : Echoes (P.rel 0) (P.rel 0) (Parser.ensnares p f)
    (Parser.ensnares q g) Ensnare.bareAll := by
  induction f generalizing g with
  | zero => exact of_fails fails_outOfFuel
  | succ f ih =>
    obtain ⟨g, rfl⟩ := Nat.exists_eq_add_one.2 (Nat.lt_of_lt_of_le (Nat.succ_pos f) hfg)
    refine ifCheck (c := .keyword .ensnare) ((advance rfl).bind fun word word' _ => ?_) (.pure rfl)
    have hrest : ∀ condition condition' : Option Expr,
        Like (Option.map Expr.bare) condition condition' → Echoes (P.rel 0) (P.rel 0)
          (do
            let binder ← Parser.binder
            let body ← Parser.block p
            return (⟨word.pos, condition, binder, body⟩ : Ensnare) :: (← Parser.ensnares p f))
          (do
            let binder ← Parser.binder
            let body ← Parser.block q
            return (⟨word'.pos, condition', binder, body⟩ : Ensnare) :: (← Parser.ensnares q g))
          Ensnare.bareAll := by
      intro condition condition' hcondition
      refine binder.bind fun _ _ hbinder => (block h).bind fun _ _ hbody => ?_
      refine (ih (Nat.le_of_succ_le_succ hfg)).bind fun _ _ hmore => .pure ?_
      simp only [Like, Ensnare.bareAll, Ensnare.bare, hcondition, hbinder, hbody, hmore]
    refine look fun c c' hlike => ?_
    rw [Token.kind_of_like hlike]
    split
    · exact (hrest none none rfl).before fun _ _ hst => hst.1
    · exact (hrest none none rfl).before fun _ _ hst => hst.1
    · exact (((some (expr h.expr)).bind hrest)).before fun _ _ hst => hst.1

theorem attemptStmt : Echoes (P.at 0 (.keyword .attempt)) (P.rel 0) (Parser.attemptStmt p)
    (Parser.attemptStmt q) Stmt.bare := by
  refine (advance rfl).bind fun _ _ _ => (block h).bind fun _ _ hbody => ?_
  refine (ensnares h h.fuel).bind fun _ _ hensnares => (blockAfter h).bind fun _ _ hresolve => ?_
  refine .pure ?_
  simp only [Like, Stmt.bare, hbody, hensnares, hresolve]

theorem withinStmt : Echoes (P.at 0 (.keyword .with_)) (P.rel 0) (Parser.withinStmt p)
    (Parser.withinStmt q) Stmt.bare := by
  refine (advance rfl).bind fun _ _ _ => (expr h.expr).bind fun _ _ he => ?_
  refine binder.bind fun _ _ hbinder => (block h).bind fun _ _ hbody => .pure ?_
  simp only [Like, Stmt.bare, he, hbinder, hbody]

theorem mainStmt : Echoes (P.at 0 (.keyword .main)) (P.rel 0)
    (do let word ← Parser.advance; return Stmt.main word.pos (← Parser.block p))
    (do let word ← Parser.advance; return Stmt.main word.pos (← Parser.block q)) Stmt.bare := by
  refine (advance rfl).bind fun _ _ _ => (block h).bind fun _ _ hbody => .pure ?_
  simp only [Like, Stmt.bare, hbody]

omit h in
/-- A parse that first looks at the next token. What starts a line is read alike by any pairing. -/
theorem lookLine {k l : Token → Parse α} {bare : α → α'}
    (hline : ∀ Q : Pairing, Q.Ends (Q.rel 0) →
      Mirrors (fun s t => Q.rel 0 s t ∧ s.cur.kind.opensBody = false) (Q.rel 0)
        (Parser.cur >>= k) (Parser.cur >>= l) (Like bare))
    (hbody : ∀ c c', c.kind.opensBody = true → Like Token.bare c c' →
      Echoes (P.at 0 c.kind) (P.rel 0) (k c) (l c') bare) :
    Echoes (P.rel 0) (P.rel 0) (Parser.cur >>= k) (Parser.cur >>= l) bare := by
  constructor
  · intro s a s' hok hfound
    cases hopens : s.cur.kind.opensBody with
    | true => exact (hbody s.cur s.cur hopens rfl).silent s a s' hok hfound
    | false =>
      obtain ⟨_, _, -, -, -, hkept⟩ := hline (.keeping s.found) (Pairing.ends_keeping s.found)
        s s ⟨⟨rfl, rfl⟩, hopens⟩ a s' hok
      rw [← hkept, hfound]
  · intro s t hst a s' hok hfound
    cases hopens : s.cur.kind.opensBody with
    | true =>
      exact (hbody s.cur t.cur hopens (P.same hst)).mirrors s t ⟨hst, rfl⟩ a s' hok hfound
    | false => exact hline P.toPairing P.ends s t ⟨hst, hopens⟩ a s' hok

theorem stmtOf : Echoes (P.rel 0) (P.rel 0) (Parser.stmtOf p) (Parser.stmtOf q) Stmt.bare := by
  refine lookLine (fun Q hQ => Mirrors.lineStmt hQ h.expr h.fuel) fun c c' hopens hlike => ?_
  have hspell : Echoes (P.rel 0) (P.rel 0) (do return Stmt.spell (← Parser.spell p false))
      (do return Stmt.spell (← Parser.spell q false)) Stmt.bare :=
    (spell h false).bind fun _ _ hdecl => .pure (by simp only [Like, Stmt.bare, hdecl])
  rw [Token.kind_of_like hlike]
  split
  case h_20 =>
    exact (of_mirrors (fun _ hQ => Mirrors.exprStmt hQ h.expr h.fuel) P.ends).before
      fun _ _ hst => hst.1
  all_goals
    rename_i hk
    simp only [hk] at hopens ⊢
  case h_1 => exact hspell.before fun _ _ hst => hst.1
  case h_2 => exact hspell.before fun _ _ hst => hst.1
  case h_3 => exact arcaneSpell h
  case h_4 => exact (grimoire h).before fun _ _ hst => hst.1
  case h_5 => exact (grimoire h).before fun _ _ hst => hst.1
  case h_6 => exact conditional h
  case h_7 => exact whileLoop h
  case h_8 => exact eachLoop h
  case h_11 => exact matchStmt h
  case h_12 => exact attemptStmt h
  case h_18 => exact withinStmt h
  case h_19 => exact mainStmt h
  all_goals cases hopens

end Parts

end Echoes

def Parts.ofFuel (fuel : Nat) : Parts := ⟨fuel, exprAt fuel .lowest, Parser.stmt fuel⟩

/-- How the marked body is read, with any fuel and a little more on the other side. -/
structure BodyPairing.ReadsMarked (P : BodyPairing) : Prop where
  block {f g : Nat} : f < g → MirrorsClean P.marked (P.rel 0) (Parser.block (.ofFuel f))
    (Parser.block (.ofFuel g)) Stmt.bareAll
  cases (f : Nat) : ∀ s t, P.marked s t → ∀ r s', (do
    let _ ← expect (.symbol .colon)
    let _ ← expect .newline
    let _ ← expect .indent
    Parser.cases (.ofFuel f) none f : Parse _) s ≠ .ok r s'

namespace Echoes

variable {P : BodyPairing} {f g : Nat}

theorem stmt (hmarked : P.ReadsMarked) (hfg : f < g) :
    Echoes (P.rel 0) (P.rel 0) (Parser.stmt f) (Parser.stmt g) Stmt.bare := by
  induction f generalizing g with
  | zero => exact of_fails fails_outOfFuel
  | succ f ih =>
    obtain ⟨g, rfl⟩ := Nat.exists_eq_add_one.2 (Nat.lt_trans (Nat.succ_pos f) hfg)
    have hlt := Nat.lt_of_succ_lt_succ hfg
    exact stmtOf (p := .ofFuel f) (q := .ofFuel g)
      { fuel := Nat.le_of_lt hlt
        expr := fun Q n => operandsMirror_exprAt (Nat.le_of_lt hlt) Q n .lowest
        stmt := ih hlt
        block := hmarked.block hlt
        cases := hmarked.cases f }

theorem program (hmarked : P.ReadsMarked) (hfg : f < g) :
    Echoes (P.rel 0) (P.rel 0) (Parser.program f) (Parser.program g) Stmt.bareAll := by
  refine statements (stmt hmarked hfg) _ _ (fun k hk => ?_) (Nat.le_of_lt hfg)
  unfold isTopSeparator at hk
  split at hk
  · exact .inl rfl
  · exact .inr (.inr rfl)
  · exact .inr (.inl rfl)
  · cases hk

end Echoes

end Parser

end Spellbook
