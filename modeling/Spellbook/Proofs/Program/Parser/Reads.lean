import Spellbook.Program.Parser
import Spellbook.Proofs.Token.Lexes

/-! Parses that succeed. `Reads` says which tokens a parse finds and which it leaves, and the rules
below follow the parser's moves. -/
namespace Spellbook

theorem Token.kind_of_bare {t b : Token} (h : t.bare = b) : t.kind = b.kind := h ▸ rfl

theorem Token.lexeme_of_bare {t b : Token} (h : t.bare = b) : t.lexeme = b.lexeme := h ▸ rfl

theorem Token.literal_of_bare {t b : Token} (h : t.bare = b) : t.literal = b.literal := h ▸ rfl

namespace Parser

/-- The parser stands before these tokens and EOF, places apart, and has reported nothing. -/
structure State.At (s : State) (tokens : List Token) : Prop where
  tokens : (s.cur :: s.ahead).map Token.bare = tokens ++ [.eof]
  found : s.found = []

/-- The parse takes the parser from the tokens `before` to the tokens `after`. -/
def Reads {α : Type} (x : Parse α) (before after : List Token) (P : α → Prop) : Prop :=
  ∀ s : State, s.At before → ∃ a s', x s = .ok a s' ∧ s'.At after ∧ P a

namespace State.At

variable {s : State} {t : Token} {ts : List Token}

theorem cur (h : s.At (t :: ts)) : s.cur.bare = t := by
  have htokens := h.tokens
  injection htokens

theorem kind (h : s.At (t :: ts)) : s.cur.kind = t.kind := Token.kind_of_bare h.cur

theorem ahead (h : s.At (t :: ts)) :
    s.ahead.map Token.bare = ts ++ [Token.eof] := by
  have htokens := h.tokens
  injection htokens

end State.At

namespace Reads

variable {α β : Type} {P : α → Prop} {Q : β → Prop} {t : Token} {before mid after : List Token}

theorem pure {a : α} (h : P a) : Reads (Pure.pure a) after after P :=
  fun s hs => ⟨a, s, rfl, hs, h⟩

theorem bind {x : Parse α} {k : α → Parse β} (hx : Reads x before mid P)
    (hk : ∀ a, P a → Reads (k a) mid after Q) : Reads (x >>= k) before after Q := by
  intro s hs
  obtain ⟨a, s₁, hrun, hs₁, ha⟩ := hx s hs
  obtain ⟨b, s₂, hrun', hs₂, hb⟩ := hk a ha s₁ hs₁
  refine ⟨b, s₂, ?_, hs₂, hb⟩
  simp only [Bind.bind, EStateM.bind, hrun]
  exact hrun'

theorem known {x : Parse α} {a : α} {k : α → Parse β} (hx : Reads x before mid (· = a))
    (hk : Reads (k a) mid after Q) : Reads (x >>= k) before after Q :=
  hx.bind fun _ h => h ▸ hk

theorem some {x : Parse α} (hx : Reads x before after P) :
    Reads (Option.some <$> x) before after fun r => ∃ a, r = Option.some a ∧ P a := by
  intro s hs
  obtain ⟨a, s', hrun, hs', ha⟩ := hx s hs
  refine ⟨Option.some a, s', ?_, hs', a, rfl, ha⟩
  simp only [Functor.map, EStateM.map, hrun]

theorem imp {P' : α → Prop} {x : Parse α} (hx : Reads x before after P) (h : ∀ a, P a → P' a) :
    Reads x before after P' := by
  intro s hs
  obtain ⟨a, s', hrun, hs', ha⟩ := hx s hs
  exact ⟨a, s', hrun, hs', h a ha⟩

theorem look {k : Token → Parse α}
    (h : ∀ t', t'.bare = t → Reads (k t') (t :: before) after P) :
    Reads (Parser.cur >>= k) (t :: before) after P :=
  fun s hs => h s.cur hs.cur s hs

theorem look_end {k : Token → Parse α} (h : ∀ t, t.kind = .eof → Reads (k t) [] after P) :
    Reads (Parser.cur >>= k) [] after P := by
  intro s hs
  have htokens := hs.tokens
  injection htokens with hcur
  exact h s.cur (Token.kind_of_bare hcur) s hs

theorem outcome {x : Parse α} (hx : Reads x before after P) :
    Reads (Parser.outcome x) before after fun r => ∃ a, r = .ok a ∧ P a := by
  intro s hs
  obtain ⟨a, s', hrun, hs', ha⟩ := hx s hs
  refine ⟨.ok a, s', ?_, hs', a, rfl, ha⟩
  simp only [Parser.outcome, hrun]

theorem cur : Reads Parser.cur (t :: after) (t :: after) (·.bare = t) :=
  fun s hs => ⟨s.cur, s, rfl, hs, hs.cur⟩

theorem advance : Reads Parser.advance (t :: after) after (·.bare = t) := by
  intro s hs
  unfold Parser.advance
  have hahead := hs.ahead
  cases hcons : s.ahead with
  | nil =>
    rw [hcons] at hahead
    exact absurd hahead.symm (List.append_ne_nil_of_right_ne_nil _ (List.cons_ne_nil _ _))
  | cons t' ts =>
    rw [hcons] at hahead
    exact ⟨s.cur, _, rfl, ⟨hahead, hs.found⟩, hs.cur⟩

theorem check_true {k : Kind} (h : t.kind = k) :
    Reads (Parser.check k) (t :: after) (t :: after) (· = true) :=
  fun s hs => ⟨s.cur.kind == k, s, rfl, hs, by rw [hs.kind, h, beq_self_eq_true]⟩

theorem check_false {k : Kind} (h : t.kind ≠ k) :
    Reads (Parser.check k) (t :: after) (t :: after) (· = false) :=
  fun s hs => ⟨s.cur.kind == k, s, rfl, hs, by rw [hs.kind, beq_eq_false_iff_ne.2 h]⟩

theorem follows {t' : Token} (k : Kind) :
    Reads (Parser.follows k) (t :: t' :: after) (t :: t' :: after) (· = (t'.kind == k)) := by
  intro s hs
  refine ⟨_, s, rfl, hs, ?_⟩
  have hahead := hs.ahead
  cases hcons : s.ahead with
  | nil =>
    rw [hcons] at hahead
    cases hahead
  | cons t'' ts =>
    rw [hcons] at hahead
    injection hahead with hhead
    show (Option.some t''.kind == Option.some k) = _
    rw [Token.kind_of_bare hhead]
    rfl

theorem accept_true {k : Kind} (h : t.kind = k) :
    Reads (Parser.accept k) (t :: after) after (· = true) := by
  refine (check_true h).known ?_
  exact advance.bind fun _ _ => .pure rfl

theorem accept_false {k : Kind} (h : t.kind ≠ k) :
    Reads (Parser.accept k) (t :: after) (t :: after) (· = false) := by
  refine (check_false h).known ?_
  exact .pure rfl

theorem expect {k : Kind} (h : t.kind = k) :
    Reads (Parser.expect k) (t :: after) after (·.bare = t) := by
  refine (check_true h).known ?_
  exact advance

theorem level (h : t.kind ≠ .keyword .not_) :
    Reads Parser.level (t :: after) (t :: after) (· = Level.ofKind t.kind) := by
  refine cur.bind fun t' ht => ?_
  have hkind : t'.kind = t.kind := Token.kind_of_bare ht
  rw [← hkind] at h ⊢
  split
  · rename_i heq
    exact absurd heq h
  · exact .pure rfl

theorem level_notIn {t' : Token} (h : t.kind = .keyword .not_) (h' : t'.kind = .keyword .in_) :
    Reads Parser.level (t :: t' :: after) (t :: t' :: after) (· = .comparison) := by
  refine cur.bind fun t' ht => ?_
  rw [Token.kind_of_bare ht, h]
  refine (follows (.keyword .in_)).bind fun b hb => .pure ?_
  rw [hb, h', beq_self_eq_true, if_pos rfl]

end Reads

end Parser

end Spellbook
