import Spellbook.Proofs.Program.Parser.Mirrors.Lines

/-! Statements with bodies are read alike, as long as nothing is reported. One body may be laid out
differently for the two parsers, and how that is read is an assumption here. -/
namespace Spellbook.Parser

variable {α β : Type}

/-! Reports -/

/-- Nothing is reported, and what has been is kept. -/
def Keeps (x : Parse α) : Prop := ∀ s a s', x s = .ok a s' → s'.found = s.found

/-- Reports are kept: where there are none in the end, there were none before. -/
def Silent (x : Parse α) : Prop := ∀ s a s', x s = .ok a s' → s'.found = [] → s.found = []

namespace Keeps

theorem pure (a : α) : Keeps (Pure.pure a : Parse α) := fun _ _ _ hok => by cases hok; rfl

theorem of_fails {x : Parse α} (h : Fails x) : Keeps x := fun s a s' hok => absurd hok (h s a s')

theorem bind {x : Parse α} {k : α → Parse β} (hx : Keeps x) (hk : ∀ a, Keeps (k a)) :
    Keeps (x >>= k) := by
  intro s b s' hok
  obtain ⟨a, s₁, hrun, hrest⟩ := bind_eq_ok.1 hok
  exact (hk a s₁ b s' hrest).trans (hx s a s₁ hrun)

theorem cur : Keeps Parser.cur := fun _ _ _ hok => by cases hok; rfl

theorem check (k : Kind) : Keeps (Parser.check k) := fun _ _ _ hok => by cases hok; rfl

theorem advance : Keeps Parser.advance := by
  intro s a s' hok
  rw [advance_eq] at hok
  cases hok
  exact s.next_found

theorem accept (k : Kind) : Keeps (Parser.accept k) := by
  refine (check k).bind fun b => ?_
  split
  · exact advance.bind fun _ => pure true
  · exact pure false

theorem expect (k : Kind) : Keeps (Parser.expect k) := by
  refine (check k).bind fun b => ?_
  split
  · exact advance
  · exact of_fails (fails_unexpected k)

theorem endStatement : Keeps Parser.endStatement := by
  refine cur.bind fun t => ?_
  split
  · exact advance.bind fun _ => pure ()
  · exact advance.bind fun _ => pure ()
  · exact pure ()
  · exact pure ()
  · exact of_fails (fails_unexpected _)

theorem silent {x : Parse α} (h : Keeps x) : Silent x :=
  fun s a s' hok hfound => h s a s' hok ▸ hfound

end Keeps

theorem Silent.bind {x : Parse α} {k : α → Parse β} (hx : Silent x) (hk : ∀ a, Silent (k a)) :
    Silent (x >>= k) := by
  intro s b s' hok hfound
  obtain ⟨a, s₁, hrun, hrest⟩ := bind_eq_ok.1 hok
  exact hx s a s₁ hrun (hk a s₁ b s' hrest hfound)

def Pairing.keeping (found : List Diagnostic) : Pairing where
  rel _ s t := s = t ∧ s.found = found
  cur h _ := h.1 ▸ rfl
  follows h _ := h.1 ▸ rfl
  take h _ := ⟨h.1 ▸ rfl, h.2 ▸ State.next_found _⟩

theorem Pairing.ends_keeping (found : List Diagnostic) :
    (keeping found).Ends ((keeping found).rel 0) where
  iff h := h.1 ▸ rfl
  take := by
    rintro s t ⟨rfl, hfound⟩ a s' hok
    exact ⟨a, s', hok, rfl, rfl, (Keeps.endStatement s a s' hok).trans hfound⟩

theorem Keeps.of_mirrors {x y : Parse α} {V : α → α → Prop} {n m : Nat}
    (h : ∀ P : Pairing, P.Ends (P.rel 0) → Mirrors (P.rel n) (P.rel m) x y V) : Keeps x := by
  intro s a s' hok
  obtain ⟨_, _, -, -, -, hfound⟩ :=
    h (.keeping s.found) (Pairing.ends_keeping s.found) s s ⟨rfl, rfl⟩ a s' hok
  exact hfound

/-- Parses that may report something. Nothing is asked of the second if the first does. -/
def MirrorsClean (Pre Post : State → State → Prop) (x y : Parse α) (f : α → β) : Prop :=
  ∀ s t, Pre s t → ∀ a s', x s = .ok a s' → s'.found = [] →
    ∃ b t', y t = .ok b t' ∧ Like f a b ∧ Post s' t'

structure Echoes (Pre Post : State → State → Prop) (x y : Parse α) (f : α → β) : Prop where
  silent : Silent x
  mirrors : MirrorsClean Pre Post x y f

/-- The states of two parsers of statements. They have the same token next, and line ends and the
ends of blocks can be passed. Behind a colon comes a body: one that is `marked`, or one that is laid
out in the same way for both. -/
structure BodyPairing extends Pairing where
  same {n : Nat} {s t : State} : rel n s t → Like Token.bare s.cur t.cur
  pass {s t : State} : rel 0 s t → s.cur.kind = .newline ∨ s.cur.kind = .dedent →
    rel 0 s.next t.next
  marked : State → State → Prop
  body {s t : State} : rel 0 s t → s.cur.kind = .symbol .colon → marked s t ∨
    rel 0 s.next t.next ∧ (s.next.cur.kind = .newline → s.next.next.cur.kind = .indent →
      rel 0 s.next.next.next t.next.next.next)

/-- A body starts here, and if it is a block its statements are paired. -/
def BodyPairing.opened (P : BodyPairing) (s t : State) : Prop :=
  P.rel 0 s t ∧ (s.cur.kind = .newline → s.next.cur.kind = .indent → P.rel 0 s.next.next t.next.next)

namespace BodyPairing

variable {P : BodyPairing}

theorem look {V : α → α → Prop} {Post : State → State → Prop} {n : Nat} {k l : Token → Parse α}
    (h : ∀ c c', Like Token.bare c c' → Mirrors (P.at n c.kind) Post (k c) (l c') V) :
    Mirrors (P.rel n) Post (cur >>= k) (cur >>= l) V :=
  fun s t hst a s' hok => h s.cur t.cur (P.same hst) s t ⟨hst, rfl⟩ a s' hok

theorem passes {c : Kind} (hc : c = .newline ∨ c = .dedent) :
    Mirrors (P.at 0 c) (P.rel 0) advance advance (Like Token.bare) := by
  rintro s t ⟨hst, rfl⟩ a s' hok
  rw [advance_eq] at hok
  cases hok
  exact ⟨t.cur, t.next, advance_eq t, P.same hst, P.pass hst hc⟩

theorem ends (P : BodyPairing) : P.Ends (P.rel 0) where
  iff h := by rw [Token.kind_of_like (P.same h)]
  take := by
    refine look fun c c' hlike => ?_
    rw [Token.kind_of_like hlike]
    split
    · rename_i hk
      exact (passes (.inl hk)).bind fun _ _ _ => .pure rfl
    · rename_i hk
      rw [hk]
      exact (Mirrors.advance rfl).bind fun _ _ _ => .pure rfl
    · exact (Mirrors.pure rfl).before fun _ _ hst => hst.1
    · exact (Mirrors.pure rfl).before fun _ _ hst => hst.1
    · exact .of_fails (fails_unexpected _)

end BodyPairing

namespace Echoes

variable {α' β' : Type} {f : α → α'} {g : β → β'} {Pre Mid Post : State → State → Prop}
  {P : BodyPairing} {n : Nat} {c : Kind}

theorem of_keeps {x y : Parse α} (hs : Keeps x) (h : Mirrors Pre Post x y (Like f)) :
    Echoes Pre Post x y f :=
  ⟨hs.silent, fun s t hst a s' hok _ => h s t hst a s' hok⟩

theorem of_mirrors {x y : Parse α} {m : Nat}
    (h : ∀ P : Pairing, P.Ends (P.rel 0) → Mirrors (P.rel n) (P.rel m) x y (Like f))
    (hends : P.Ends (P.rel 0)) : Echoes (P.rel n) (P.rel m) x y f :=
  of_keeps (.of_mirrors h) (h P.toPairing hends)

theorem of_fails {x y : Parse α} (h : Fails x) : Echoes Pre Post x y f :=
  of_keeps (.of_fails h) (.of_fails h)

theorem pure {a b : α} (h : Like f a b) : Echoes Post Post (Pure.pure a) (Pure.pure b) f :=
  of_keeps (.pure a) (.pure h)

theorem bind {x y : Parse α} {k l : α → Parse β} (hx : Echoes Pre Mid x y f)
    (hk : ∀ a b, Like f a b → Echoes Mid Post (k a) (l b) g) :
    Echoes Pre Post (x >>= k) (y >>= l) g := by
  have hsilent : ∀ a, Silent (k a) := fun a => (hk a a rfl).silent
  refine ⟨hx.silent.bind hsilent, fun s t hst b s' hok hfound => ?_⟩
  obtain ⟨a, s₁, hx₁, hk₁⟩ := bind_eq_ok.1 hok
  obtain ⟨a', t₁, hy, ha, hmid⟩ :=
    hx.mirrors s t hst a s₁ hx₁ (hsilent a s₁ b s' hk₁ hfound)
  obtain ⟨b', t', hl, hb, hpost⟩ := (hk a a' ha).mirrors s₁ t₁ hmid b s' hk₁ hfound
  exact ⟨b', t', bind_eq_ok.2 ⟨a', t₁, hy, hl⟩, hb, hpost⟩

theorem map {x y : Parse α} {h h' : α → β} (hx : Echoes Pre Post x y f)
    (hh : ∀ a b, Like f a b → Like g (h a) (h' b)) : Echoes Pre Post (h <$> x) (h' <$> y) g :=
  hx.bind fun a b hab => .pure (hh a b hab)

theorem before {Pre' : State → State → Prop} {x y : Parse α} (h : Echoes Pre Post x y f)
    (hpre : ∀ s t, Pre' s t → Pre s t) : Echoes Pre' Post x y f :=
  ⟨h.silent, fun s t hst => h.mirrors s t (hpre s t hst)⟩

/-- The tokens that are looked at are the same but for their places. -/
theorem look {k l : Token → Parse α} (h : ∀ c c', Like Token.bare c c' →
      Echoes (P.at n c.kind) Post (k c) (l c') f) :
    Echoes (P.rel n) Post (Parser.cur >>= k) (Parser.cur >>= l) f := by
  refine ⟨Keeps.cur.silent.bind fun c => (h c c rfl).silent, fun s t hst a s' hok hfound => ?_⟩
  exact (h s.cur t.cur (P.same hst)).mirrors s t ⟨hst, rfl⟩ a s' hok hfound

theorem checked {R : State → State → Prop} (hR : ∀ s t, R s t → P.rel n s t)
    {k l : Bool → Parse α}
    (htrue : Echoes (fun s t => R s t ∧ s.cur.kind = c) Post (k true) (l true) f)
    (hfalse : Echoes R Post (k false) (l false) f) :
    Echoes R Post (Parser.check c >>= k) (Parser.check c >>= l) f := by
  constructor
  · refine (Keeps.check c).silent.bind fun b => ?_
    cases b with
    | true => exact htrue.silent
    | false => exact hfalse.silent
  · intro s t hst a s' hok hfound
    have hkind : t.cur.kind = s.cur.kind := Token.kind_of_like (P.same (hR s t hst))
    simp only [Parser.check, Bind.bind, EStateM.bind, hkind] at hok ⊢
    by_cases hs : s.cur.kind = c
    · rw [beq_iff_eq.2 hs] at hok ⊢
      exact htrue.mirrors s t ⟨hst, hs⟩ a s' hok hfound
    · rw [beq_eq_false_iff_ne.2 hs] at hok ⊢
      exact hfalse.mirrors s t hst a s' hok hfound

theorem ifCheck {x x' y y' : Parse α} (hx : Echoes (P.at n c) Post x x' f)
    (hy : Echoes (P.rel n) Post y y' f) :
    Echoes (P.rel n) Post (Parser.check c >>= fun b => if b = true then x else y)
      (Parser.check c >>= fun b => if b = true then x' else y') f :=
  checked (fun _ _ hst => hst) hx hy

theorem advance (hc : c.isTaken n = true) :
    Echoes (P.at n c) (P.rel (Lexer.nestingAfter n c)) Parser.advance Parser.advance Token.bare :=
  of_keeps .advance (.advance hc)

theorem pass (hc : c = .newline ∨ c = .dedent) :
    Echoes (P.at 0 c) (P.rel 0) Parser.advance Parser.advance Token.bare :=
  of_keeps .advance (BodyPairing.passes hc)

theorem expect (hc : c.isTaken n = true) :
    Echoes (P.rel n) (P.rel (Lexer.nestingAfter n c)) (Parser.expect c) (Parser.expect c)
      Token.bare :=
  of_keeps (.expect c) (.expect hc)

theorem ident : Echoes (P.rel n) (P.rel n) Parser.ident Parser.ident Ident.bare :=
  (expect rfl).bind fun _ _ h => .pure (like_identOf h)

theorem check : Echoes (P.rel n) (P.rel n) (Parser.check c) (Parser.check c) id := by
  refine of_keeps (.check c) ?_
  intro s t hst a s' hok
  cases hok
  refine ⟨_, t, rfl, ?_, hst⟩
  rw [Like, Token.kind_of_like (P.same hst)]

theorem ifAccept {x x' y y' : Parse α} (hc : c.isTaken n = true)
    (hx : Echoes (P.rel (Lexer.nestingAfter n c)) Post x x' f)
    (hy : Echoes (P.rel n) Post y y' f) :
    Echoes (P.rel n) Post (Parser.accept c >>= fun b => if b = true then x else y)
      (Parser.accept c >>= fun b => if b = true then x' else y') f := by
  rw [accept_bind, accept_bind]
  exact ifCheck ((advance hc).bind fun _ _ _ => hx) hy

theorem ifPass {x x' y y' : Parse α} (hc : c = .newline ∨ c = .dedent)
    (hx : Echoes (P.rel 0) Post x x' f) (hy : Echoes (P.rel 0) Post y y' f) :
    Echoes (P.rel 0) Post (Parser.accept c >>= fun b => if b = true then x else y)
      (Parser.accept c >>= fun b => if b = true then x' else y') f := by
  rw [accept_bind, accept_bind]
  exact ifCheck ((pass hc).bind fun _ _ _ => hx) hy

theorem accept (hc : c.isTaken n = true) (hn : Lexer.nestingAfter n c = n) :
    Echoes (P.rel n) (P.rel n) (Parser.accept c) (Parser.accept c) id :=
  of_keeps (.accept c) (.accept hc hn)

theorem dedent : Echoes (P.rel 0) (P.rel 0) (Parser.accept .dedent) (Parser.accept .dedent) id :=
  ifCheck ((pass (.inr rfl)).bind fun _ _ _ => .pure rfl) (.pure rfl)

theorem skipNewlines {m k : Nat} (hmk : m ≤ k) :
    Echoes (P.rel 0) (P.rel 0) (Parser.skipNewlines m) (Parser.skipNewlines k) id := by
  induction m generalizing k with
  | zero => exact of_fails fails_outOfFuel
  | succ m ih =>
    obtain ⟨k, rfl⟩ := Nat.exists_eq_add_one.2 (Nat.lt_of_lt_of_le (Nat.succ_pos m) hmk)
    exact ifPass (.inl rfl) (ih (Nat.le_of_succ_le_succ hmk)) (.pure rfl)

end Echoes

/-- Something is reported whenever the parse succeeds. -/
def Loud (x : Parse α) : Prop := ∀ s a s', x s = .ok a s' → s'.found ≠ []

theorem Loud.report (d : Diagnostic) {k : Unit → Parse α} (hk : Silent (k ())) :
    Loud (Parser.report d >>= k) := by
  intro s a s' hok hfound
  obtain ⟨_, s₁, hreport, hrest⟩ := bind_eq_ok.1 hok
  cases hreport
  exact List.cons_ne_nil _ _ (hk _ a s' hrest hfound)

theorem Loud.silent {x : Parse α} (h : Loud x) : Silent x :=
  fun s a s' hok hfound => absurd hfound (h s a s' hok)

namespace Echoes

variable {α' β' : Type} {f : α → α'} {g : β → β'} {Pre Mid Post : State → State → Prop}
  {P : BodyPairing}

theorem of_loud {x y : Parse α} (h : Loud x) : Echoes Pre Post x y f :=
  ⟨h.silent, fun s _ _ a s' hok hfound => absurd hfound (h s a s' hok)⟩

theorem attempt {x y : Parse α} {k l : Except Diagnostic α → Parse β}
    (hx : Echoes Pre Mid x y f)
    (hk : ∀ a b, Like f a b → Echoes Mid Post (k (.ok a)) (l (.ok b)) g)
    (he : ∀ d, Loud (k (.error d))) : Echoes Pre Post (outcome x >>= k) (outcome y >>= l) g := by
  have hsilent : ∀ a, Silent (k (.ok a)) := fun a => (hk a a rfl).silent
  have hrun : ∀ s b s', (outcome x >>= k) s = .ok b s' → s'.found = [] →
      ∃ a s₁, x s = .ok a s₁ ∧ k (.ok a) s₁ = .ok b s' := by
    intro s b s' hok hfound
    obtain ⟨r, s₁, hout, hrest⟩ := bind_eq_ok.1 hok
    simp only [outcome] at hout
    cases hxs : x s with
    | ok a s₂ =>
      simp only [hxs, EStateM.Result.ok.injEq] at hout
      obtain ⟨rfl, rfl⟩ := hout
      exact ⟨a, s₂, rfl, hrest⟩
    | error e s₂ =>
      cases e with
      | complaint d =>
        simp only [hxs, EStateM.Result.ok.injEq] at hout
        obtain ⟨rfl, rfl⟩ := hout
        exact absurd hfound (he d _ _ _ hrest)
      | outOfFuel => simp [hxs] at hout
  constructor
  · intro s b s' hok hfound
    obtain ⟨a, s₁, hxs, hks⟩ := hrun s b s' hok hfound
    exact hx.silent s a s₁ hxs (hsilent a s₁ b s' hks hfound)
  · intro s t hst b s' hok hfound
    obtain ⟨a, s₁, hxs, hks⟩ := hrun s b s' hok hfound
    obtain ⟨a', t₁, hy, ha, hmid⟩ := hx.mirrors s t hst a s₁ hxs (hsilent a s₁ b s' hks hfound)
    obtain ⟨b', t', hl, hb, hpost⟩ := (hk a a' ha).mirrors s₁ t₁ hmid b s' hks hfound
    refine ⟨b', t', bind_eq_ok.2 ⟨.ok a', t₁, ?_, hl⟩, hb, hpost⟩
    simp only [outcome, hy]

theorem statements {x y : Parse Stmt} (hx : Echoes (P.rel 0) (P.rel 0) x y Stmt.bare)
    (ends stray : Kind → Bool) (hstray : ∀ k, stray k = true →
      k = .newline ∨ k = .dedent ∨ k = .symbol .semicolon) {m k : Nat} (hmk : m ≤ k) :
    Echoes (P.rel 0) (P.rel 0) (Parser.statements x ends stray m)
      (Parser.statements y ends stray k) Stmt.bareAll := by
  induction m generalizing k with
  | zero => exact of_fails fails_outOfFuel
  | succ m ih =>
    obtain ⟨k, rfl⟩ := Nat.exists_eq_add_one.2 (Nat.lt_of_lt_of_le (Nat.succ_pos m) hmk)
    have hmore := ih (Nat.le_of_succ_le_succ hmk)
    refine look fun c c' hlike => ?_
    rw [Token.kind_of_like hlike]
    split
    · exact (pure rfl).before fun _ _ hst => hst.1
    · split
      · rename_i hk
        obtain hc | hc | hc := hstray _ hk
        · exact (pass (.inl hc)).bind fun _ _ _ => hmore
        · exact (pass (.inr hc)).bind fun _ _ _ => hmore
        · rw [hc]
          exact (advance (c := .symbol .semicolon) rfl).bind fun _ _ _ => hmore
      · split
        · refine of_loud (.report _ ?_)
          exact Silent.bind (fun _ _ _ hok h => by cases hok; exact h) fun _ => hmore.silent
        · refine before (attempt hx (fun a b hab => hmore.bind fun as bs habs => .pure ?_)
            fun d => ?_) fun _ _ hst => hst.1
          · simp only [Like, Stmt.bareAll, hab, habs]
          · refine .report _ ?_
            exact Silent.bind (fun _ _ _ hok h => by cases hok; exact h) fun _ => hmore.silent

end Echoes

end Spellbook.Parser
