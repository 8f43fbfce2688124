import Spellbook.Program.Parser
import Spellbook.Proofs.Program.Parser.Reads
import Spellbook.Proofs.Program.Parts
import Spellbook.Proofs.Token.Spans

/-! Two parsers side by side. A pairing relates the states of two parsers that have the same tokens
to look at, as far as expressions look. Whenever the first parser succeeds, so does the second, with
the same tree up to places, and their states are paired again. -/
namespace Spellbook

/-- The two values have the same image. Mostly this is what is left without the places. -/
abbrev Like {α β : Type} (f : α → β) (a b : α) : Prop := f b = f a

theorem Token.kind_of_like {c c' : Token} (h : Like Token.bare c c') : c'.kind = c.kind :=
  Token.kind_of_bare (b := c.bare) h

theorem Token.lexeme_of_like {c c' : Token} (h : Like Token.bare c c') : c'.lexeme = c.lexeme :=
  Token.lexeme_of_bare (b := c.bare) h

theorem Token.literal_of_like {c c' : Token} (h : Like Token.bare c c') :
    c'.literal = c.literal :=
  Token.literal_of_bare (b := c.bare) h

namespace Parser

theorem like_identOf {c c' : Token} (h : Like Token.bare c c') :
    Like Ident.bare (identOf c) (identOf c') := by
  simp only [Like, Ident.bare, identOf, Token.lexeme_of_like h]

def State.next (s : State) : State :=
  match s.ahead with
  | [] => s
  | t :: ts => { s with cur := t, ahead := ts }

theorem advance_eq (s : State) : advance s = .ok s.cur s.next := by
  unfold advance State.next
  cases s.ahead <;> rfl

@[simp]
theorem State.next_found (s : State) : s.next.found = s.found := by
  unfold next
  split <;> rfl

end Parser

/-- Whether an expression can have a token of this kind where so many brackets are open. A colon
outside of brackets is never a part of one. -/
def Kind.isTaken : Kind → Nat → Bool
  | .symbol .colon, 0 => false
  | k, _ => k.isSolid

theorem Kind.isSolid_of_isTaken {k : Kind} {n : Nat} (h : k.isTaken n = true) :
    k.isSolid = true := by
  unfold isTaken at h
  split at h
  · cases h
  · exact h

theorem Kind.of_not_isSolid {k : Kind} (h : k.isSolid = false) :
    k = .illegal ∨ k = .eof ∨ k = .newline ∨ k = .indent ∨ k = .dedent := by
  cases k <;> simp_all [Kind.isSolid]

namespace Parser

/-- States of two parsers, by the number of brackets that are open. Where one of them has a token
that is written out next, the other has the same, and the tokens of expressions can be taken. -/
structure Pairing where
  rel : Nat → State → State → Prop
  cur {n : Nat} {s t : State} : rel n s t →
    s.cur.kind.isSolid = true ∨ t.cur.kind.isSolid = true → Like Token.bare s.cur t.cur
  follows {n : Nat} {s t : State} : rel n s t → s.cur.kind = .keyword .not_ →
    ((t.ahead.head?.map (·.kind)) == some (.keyword .in_)) =
      ((s.ahead.head?.map (·.kind)) == some (.keyword .in_))
  take {n : Nat} {s t : State} : rel n s t → s.cur.kind.isTaken n = true →
    rel (Lexer.nestingAfter n s.cur.kind) s.next t.next

/-- The states are paired, and a token of this kind is next. -/
def Pairing.at (P : Pairing) (n : Nat) (k : Kind) (s t : State) : Prop :=
  P.rel n s t ∧ s.cur.kind = k

/-- Whenever the first parse succeeds, the second does from every state that is related, their
results are alike, and the states behind are related. -/
def Mirrors {α : Type} (Pre Post : State → State → Prop) (x y : Parse α) (V : α → α → Prop) : Prop :=
  ∀ s t, Pre s t → ∀ a s', x s = .ok a s' → ∃ b t', y t = .ok b t' ∧ V a b ∧ Post s' t'

/-- The parse never succeeds. -/
def Fails {α : Type} (x : Parse α) : Prop := ∀ s a s', x s ≠ .ok a s'

theorem fails_failAt {α : Type} (pos : Pos) (c : Complaint) : Fails (failAt pos c : Parse α) :=
  fun _ _ _ h => nomatch h

theorem fails_failHere {α : Type} (c : Complaint) : Fails (failHere c : Parse α) :=
  fun _ _ _ h => nomatch h

theorem fails_outOfFuel {α : Type} : Fails (outOfFuel : Parse α) :=
  fun _ _ _ h => nomatch h

theorem fails_unexpected {α : Type} (k : Kind) : Fails (unexpected k : Parse α) :=
  fun _ _ _ h => nomatch h

theorem Fails.bind {α β : Type} {x : Parse α} (h : Fails x) (k : α → Parse β) :
    Fails (x >>= k) := by
  intro s b s' hok
  simp only [Bind.bind, EStateM.bind] at hok
  split at hok
  · exact h _ _ _ ‹_›
  · cases hok

theorem bind_eq_ok {α β : Type} {x : Parse α} {k : α → Parse β} {s s' : State} {b : β} :
    (x >>= k) s = .ok b s' ↔ ∃ a s₁, x s = .ok a s₁ ∧ k a s₁ = .ok b s' := by
  simp only [Bind.bind, EStateM.bind]
  constructor
  · intro h
    split at h
    · exact ⟨_, _, ‹_›, h⟩
    · cases h
  · rintro ⟨a, s₁, hx, hk⟩
    simp only [hx, hk]

theorem accept_bind {α : Type} (c : Kind) (x y : Parse α) :
    (accept c >>= fun b => if b = true then x else y) =
      check c >>= fun b => if b = true then advance >>= fun _ => x else y := by
  funext s
  by_cases hs : s.cur.kind = c
  · simp [accept, check, Bind.bind, EStateM.bind, hs, advance_eq, Pure.pure, EStateM.pure]
  · simp [accept, check, Bind.bind, EStateM.bind, hs, Pure.pure, EStateM.pure]

namespace Mirrors

variable {α β : Type} {V : α → α → Prop} {W : β → β → Prop} {Pre Mid Post : State → State → Prop}
  {P : Pairing} {n : Nat} {c : Kind}

theorem pure {a b : α} (h : V a b) : Mirrors Post Post (Pure.pure a) (Pure.pure b) V := by
  intro s t hst a' s' hok
  cases hok
  exact ⟨b, t, rfl, h, hst⟩

theorem bind {x y : Parse α} {k l : α → Parse β} (hx : Mirrors Pre Mid x y V)
    (hk : ∀ a b, V a b → Mirrors Mid Post (k a) (l b) W) :
    Mirrors Pre Post (x >>= k) (y >>= l) W := by
  intro s t hst b s' hok
  obtain ⟨a, s₁, hx₁, hk₁⟩ := bind_eq_ok.1 hok
  obtain ⟨a', t₁, hy, ha, hmid⟩ := hx s t hst a s₁ hx₁
  obtain ⟨b', t', hl, hb, hpost⟩ := hk a a' ha s₁ t₁ hmid b s' hk₁
  exact ⟨b', t', bind_eq_ok.2 ⟨a', t₁, hy, hl⟩, hb, hpost⟩

theorem before {Pre' : State → State → Prop} {x y : Parse α} (h : Mirrors Pre Post x y V)
    (hpre : ∀ s t, Pre' s t → Pre s t) : Mirrors Pre' Post x y V :=
  fun s t hst => h s t (hpre s t hst)

theorem map {x y : Parse α} {f g : α → β} (hx : Mirrors Pre Post x y V)
    (hf : ∀ a b, V a b → W (f a) (g b)) : Mirrors Pre Post (f <$> x) (g <$> y) W :=
  hx.bind fun a b hab => .pure (hf a b hab)

theorem some {x y : Parse α} {f : α → β} (hx : Mirrors Pre Post x y (Like f)) :
    Mirrors Pre Post (Option.some <$> x) (Option.some <$> y) (Like (Option.map f)) :=
  hx.map fun a b hab => by simp [Like, hab]

theorem of_fails {x y : Parse α} (h : Fails x) : Mirrors Pre Post x y V :=
  fun s _ _ a s' hok => absurd hok (h s a s')

/-! Looking at tokens -/

theorem look {k l : Token → Parse α}
    (hsolid : ∀ c c', c.kind.isSolid = true → Like Token.bare c c' →
      Mirrors (P.at n c.kind) Post (k c) (l c') V)
    (hother : ∀ c, c.kind.isSolid = false → Fails (k c)) :
    Mirrors (P.rel n) Post (Parser.cur >>= k) (Parser.cur >>= l) V := by
  intro s t hst a s' hok
  by_cases hs : s.cur.kind.isSolid = true
  · exact hsolid s.cur t.cur hs (P.cur hst (.inl hs)) s t ⟨hst, rfl⟩ a s' hok
  · exact absurd hok (hother s.cur (by simpa using hs) s a s')

/-- The same where the first parse may go on with a token that is not written out, and something is
known of the token. -/
theorem lookIf {C : Kind → Prop} {k l : Token → Parse α}
    (hsolid : ∀ c c', C c.kind → c.kind.isSolid = true → Like Token.bare c c' →
      Mirrors (P.at n c.kind) Post (k c) (l c') V)
    (hother : ∀ c c', c.kind.isSolid = false → c'.kind.isSolid = false →
      Mirrors (P.rel n) Post (k c) (l c') V) :
    Mirrors (fun s t => P.rel n s t ∧ C s.cur.kind) Post (Parser.cur >>= k) (Parser.cur >>= l)
      V := by
  rintro s t ⟨hst, hkind⟩ a s' hok
  by_cases hs : s.cur.kind.isSolid = true
  · exact hsolid s.cur t.cur hkind hs (P.cur hst (.inl hs)) s t ⟨hst, rfl⟩ a s' hok
  · have ht : t.cur.kind.isSolid ≠ true := fun ht => hs <| by
      rw [← Token.kind_of_like (P.cur hst (.inr ht))]
      exact ht
    exact hother s.cur t.cur (by simpa using hs) (by simpa using ht) s t hst a s' hok

theorem lookAny {k l : Token → Parse α}
    (hsolid : ∀ c c', c.kind.isSolid = true → Like Token.bare c c' →
      Mirrors (P.at n c.kind) Post (k c) (l c') V)
    (hother : ∀ c c', c.kind.isSolid = false → c'.kind.isSolid = false →
      Mirrors (P.rel n) Post (k c) (l c') V) :
    Mirrors (P.rel n) Post (Parser.cur >>= k) (Parser.cur >>= l) V :=
  (lookIf (C := fun _ => True) (fun c c' _ => hsolid c c') hother).before
    fun _ _ hst => ⟨hst, trivial⟩

theorem kind_iff {s t : State} (hst : P.rel n s t) (hc : c.isSolid = true) :
    s.cur.kind = c ↔ t.cur.kind = c := by
  constructor
  · rintro rfl
    exact Token.kind_of_like (P.cur hst (.inl hc))
  · rintro rfl
    exact (Token.kind_of_like (P.cur hst (.inr hc))).symm

theorem ifCheck {x x' y y' : Parse α} (hc : c.isSolid = true)
    (hx : Mirrors (P.at n c) Post x x' V) (hy : Mirrors (P.rel n) Post y y' V) :
    Mirrors (P.rel n) Post (Parser.check c >>= fun b => if b = true then x else y)
      (Parser.check c >>= fun b => if b = true then x' else y') V := by
  intro s t hst a s' hok
  have hiff := kind_iff hst hc
  simp only [Parser.check, Bind.bind, EStateM.bind, beq_iff_eq] at hok ⊢
  by_cases hs : s.cur.kind = c
  · rw [if_pos hs] at hok
    rw [if_pos (hiff.1 hs)]
    exact hx s t ⟨hst, hs⟩ a s' hok
  · rw [if_neg hs] at hok
    rw [if_neg fun ht => hs (hiff.2 ht)]
    exact hy s t hst a s' hok

theorem check (hc : c.isSolid = true) :
    Mirrors (P.rel n) (P.rel n) (Parser.check c) (Parser.check c) (Like id) := by
  intro s t hst a s' hok
  cases hok
  refine ⟨_, t, rfl, ?_, hst⟩
  have hiff := kind_iff hst hc
  by_cases hs : s.cur.kind = c
  · simp [Like, hs, hiff.1 hs]
  · simp [Like, beq_eq_false_iff_ne.2 hs, beq_eq_false_iff_ne.2 (mt hiff.2 hs)]

/-! Taking tokens -/

theorem advance (hc : c.isTaken n = true) :
    Mirrors (P.at n c) (P.rel (Lexer.nestingAfter n c)) Parser.advance Parser.advance
      (Like Token.bare) := by
  rintro s t ⟨hst, rfl⟩ a s' hok
  rw [advance_eq] at hok
  cases hok
  exact ⟨t.cur, t.next, advance_eq t, P.cur hst (.inl (Kind.isSolid_of_isTaken hc)),
    P.take hst hc⟩

theorem ifAccept {x x' y y' : Parse α} (hc : c.isTaken n = true)
    (hx : Mirrors (P.rel (Lexer.nestingAfter n c)) Post x x' V)
    (hy : Mirrors (P.rel n) Post y y' V) :
    Mirrors (P.rel n) Post (Parser.accept c >>= fun b => if b = true then x else y)
      (Parser.accept c >>= fun b => if b = true then x' else y') V := by
  rw [accept_bind, accept_bind]
  exact ifCheck (Kind.isSolid_of_isTaken hc) ((advance hc).bind fun _ _ _ => hx) hy

theorem accept (hc : c.isTaken n = true) (hnesting : Lexer.nestingAfter n c = n) :
    Mirrors (P.rel n) (P.rel n) (Parser.accept c) (Parser.accept c) (Like id) := by
  refine ifCheck (Kind.isSolid_of_isTaken hc) ((advance hc).bind fun _ _ _ => ?_) (.pure rfl)
  rw [hnesting]
  exact .pure rfl

theorem expect (hc : c.isTaken n = true) :
    Mirrors (P.rel n) (P.rel (Lexer.nestingAfter n c)) (Parser.expect c) (Parser.expect c)
      (Like Token.bare) :=
  ifCheck (Kind.isSolid_of_isTaken hc) (advance hc) (of_fails (fails_unexpected c))

theorem ident : Mirrors (P.rel n) (P.rel n) Parser.ident Parser.ident (Like Ident.bare) :=
  (expect rfl).bind fun _ _ h => .pure (like_identOf h)

end Mirrors

end Parser

end Spellbook
