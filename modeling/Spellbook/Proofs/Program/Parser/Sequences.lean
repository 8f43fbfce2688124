import Spellbook.Proofs.Program.Parser.Reads
import Spellbook.Proofs.Program.Printer
import Mathlib.Data.List.Forall2

/-! Lists with commas between their elements, as they stand in arrays, tuples, maps and calls. If
each element is taken from its own tokens, the list is. -/
namespace Spellbook

def Kind.opens : Kind → Bool
  | .ident | .int | .str | .keyword .self | .keyword .true_ | .keyword .false_ | .keyword .none
  | .keyword .super | .symbol .leftParen | .symbol .leftBracket | .symbol .leftBrace => true
  | _ => false

def Kind.closes : Kind → Bool
  | .newline | .symbol .rightParen | .symbol .rightBracket | .symbol .rightBrace | .symbol .comma
  | .symbol .colon => true
  | _ => false

theorem Kind.ofKind_of_closes {k : Kind} (h : k.closes = true) :
    Parser.Level.ofKind k = .lowest := by
  unfold closes at h
  split at h
  · rfl
  · rfl
  · rfl
  · rfl
  · rfl
  · rfl
  · cases h

/-- Kinds of tokens that an expression without an operator can start with. It may have a sign. -/
def Kind.starts : Kind → Bool
  | .symbol .minus | .template => true
  | k => k.opens

theorem Kind.starts_of_opens {k : Kind} (h : k.opens = true) : k.starts = true := by
  unfold starts
  split
  · rfl
  · rfl
  · exact h

theorem Kind.starts_of_closes {k : Kind} (h : k.closes = true) : k.starts = false := by
  unfold closes at h
  split at h
  iterate 6 rfl
  cases h

/-- The tokens start as an operand does, with or without a sign. -/
def Starts (tokens : List Token) : Prop := ∃ t ts, tokens = t :: ts ∧ t.kind.starts = true

theorem Starts.append {tokens : List Token} (h : Starts tokens) (more : List Token) :
    Starts (tokens ++ more) := by
  obtain ⟨t, ts, rfl, ht⟩ := h
  exact ⟨t, ts ++ more, rfl, ht⟩

namespace Parser

/-- Operands take the tokens before whatever closes them, and make of them what is said. -/
def Takes (operand : Operand) (tokens : List Token) (P : Expr → Prop) : Prop :=
  ∀ (t : Token) (ts : List Token), t.kind.closes = true →
    Reads (operand .lowest) (tokens ++ t :: ts) (t :: ts) P

namespace Reads

variable {α : Type} {xs : List α} {operand : Operand} {tokens : List Token} {t : Token}
  {after : List Token} {fuel : Nat}

theorem check_start (h : Starts tokens) {k : Kind} (hk : k.starts = false) :
    Reads (Parser.check k) (tokens ++ after) (tokens ++ after) (· = false) := by
  obtain ⟨t, ts, rfl, ht⟩ := h
  exact .check_false (ne_of_test ht hk)

theorem accept_start (h : Starts tokens) {k : Kind} (hk : k.starts = false) :
    Reads (Parser.accept k) (tokens ++ after) (tokens ++ after) (· = false) := by
  obtain ⟨t, ts, rfl, ht⟩ := h
  exact .accept_false (ne_of_test ht hk)

theorem separated_items {tokens : α → List Token} {P : α → Expr → Prop}
    (hstarts : ∀ x ∈ xs, Starts (tokens x)) (ho : ∀ x ∈ xs, Takes operand (tokens x) (P x))
    (hclose : t.kind.closes = true) (hcomma : t.kind ≠ .symbol .comma) (hfuel : xs.length < fuel) :
    Reads (Parser.items operand t.kind fuel) (separated (xs.map tokens) ++ t :: after) (t :: after)
      (List.Forall₂ P xs) := by
  induction xs generalizing fuel with
  | nil =>
    obtain ⟨fuel, rfl⟩ := Nat.exists_eq_succ_of_ne_zero (Nat.ne_zero_of_lt hfuel)
    refine (check_true rfl).known ?_
    exact .pure .nil
  | cons x xs ih =>
    obtain ⟨fuel, rfl⟩ := Nat.exists_eq_succ_of_ne_zero (Nat.ne_zero_of_lt hfuel)
    have hx := ho x List.mem_cons_self
    have hxs := ih (fun y hy => hstarts y (List.mem_cons_of_mem _ hy))
      (fun y hy => ho y (List.mem_cons_of_mem _ hy)) (Nat.lt_of_succ_lt_succ hfuel)
    have hcheck : ∀ after, Reads (Parser.check t.kind) (tokens x ++ after) (tokens x ++ after)
        (· = false) := fun _ =>
      check_start (hstarts x List.mem_cons_self) (Kind.starts_of_closes hclose)
    cases xs with
    | nil =>
      refine (hcheck _).known ?_
      refine (hx t after hclose).bind fun e he => (accept_false hcomma).known ?_
      exact .pure (.cons he .nil)
    | cons y xs =>
      simp only [List.map_cons, separated, List.append_assoc, List.cons_append] at hxs ⊢
      refine (hcheck _).known ?_
      refine (hx _ _ rfl).bind fun e he => (accept_true rfl).known ?_
      exact hxs.bind fun es hes => .pure (.cons he hes)

theorem separated_sequence {tokens : α → List Token} {P : α → Expr → Prop}
    (hstarts : ∀ x ∈ xs, Starts (tokens x)) (ho : ∀ x ∈ xs, Takes operand (tokens x) (P x))
    (hclose : t.kind.closes = true) (hcomma : t.kind ≠ .symbol .comma) (hfuel : xs.length < fuel) :
    Reads (Parser.sequence fuel operand t.kind) (separated (xs.map tokens) ++ t :: after) after
      (List.Forall₂ P xs) :=
  (separated_items hstarts ho hclose hcomma hfuel).bind fun _ hes =>
    (expect rfl).bind fun _ _ => .pure hes

theorem separated_entries {key value : α → List Token} {K V : α → Expr → Prop}
    (hstarts : ∀ x ∈ xs, Starts (key x)) (hkey : ∀ x ∈ xs, Takes operand (key x) (K x))
    (hvalue : ∀ x ∈ xs, Takes operand (value x) (V x)) (hfuel : xs.length < fuel) :
    Reads (Parser.entries operand fuel)
      (separated (xs.map fun x => key x ++ .ofSymbol .colon :: value x) ++
        .ofSymbol .rightBrace :: after) (.ofSymbol .rightBrace :: after)
      (List.Forall₂ (fun x p => K x p.1 ∧ V x p.2) xs) := by
  induction xs generalizing fuel with
  | nil =>
    obtain ⟨fuel, rfl⟩ := Nat.exists_eq_succ_of_ne_zero (Nat.ne_zero_of_lt hfuel)
    refine (check_true rfl).known ?_
    exact .pure .nil
  | cons x xs ih =>
    obtain ⟨fuel, rfl⟩ := Nat.exists_eq_succ_of_ne_zero (Nat.ne_zero_of_lt hfuel)
    have hk := hkey x List.mem_cons_self
    have hv := hvalue x List.mem_cons_self
    have hxs := ih (fun y hy => hstarts y (List.mem_cons_of_mem _ hy))
      (fun y hy => hkey y (List.mem_cons_of_mem _ hy))
      (fun y hy => hvalue y (List.mem_cons_of_mem _ hy)) (Nat.lt_of_succ_lt_succ hfuel)
    cases xs with
    | nil =>
      simp only [List.map_cons, List.map_nil, separated, List.append_assoc, List.cons_append]
      refine (check_start (hstarts x List.mem_cons_self) rfl).known ?_
      refine (hk _ _ rfl).bind fun k hk => (expect rfl).bind fun _ _ => ?_
      refine (hv _ _ rfl).bind fun v hv => (accept_false (by decide)).known ?_
      exact .pure (.cons ⟨hk, hv⟩ .nil)
    | cons y xs =>
      simp only [List.map_cons, separated, List.append_assoc, List.cons_append] at hxs ⊢
      refine (check_start (hstarts x List.mem_cons_self) rfl).known ?_
      refine (hk _ _ rfl).bind fun k hk => (expect rfl).bind fun _ _ => ?_
      refine (hv _ _ rfl).bind fun v hv => (accept_true rfl).known ?_
      exact hxs.bind fun es hes => .pure (.cons ⟨hk, hv⟩ hes)

theorem start_paren {before : List Token} {P : Expr → Prop}
    (h : Reads (Parser.grouping fuel operand) (.ofSymbol .leftParen :: before) after P) :
    Reads (operandStart fuel operand) (.ofSymbol .leftParen :: before) after P := by
  refine look fun paren hparen => ?_
  rw [Token.kind_of_bare hparen]
  exact h

theorem separated_array {tokens : α → List Token} {P : α → Expr → Prop}
    (hstarts : ∀ x ∈ xs, Starts (tokens x)) (ho : ∀ x ∈ xs, Takes operand (tokens x) (P x))
    (hfuel : xs.length < fuel) :
    Reads (operandStart fuel operand) (.ofSymbol .leftBracket ::
        (separated (xs.map tokens) ++ .ofSymbol .rightBracket :: after)) after
      (fun e => ∃ pos es, e = .array pos es ∧ List.Forall₂ P xs es) := by
  refine look fun t ht => ?_
  rw [Token.kind_of_bare ht]
  refine advance.bind fun bracket _ => ?_
  refine (separated_sequence (t := .ofSymbol .rightBracket) hstarts ho rfl (by decide) hfuel).bind
    fun es hes => ?_
  exact .pure ⟨bracket.pos, es, rfl, hes⟩

theorem separated_map {key value : α → List Token} {K V : α → Expr → Prop}
    (hstarts : ∀ x ∈ xs, Starts (key x)) (hkey : ∀ x ∈ xs, Takes operand (key x) (K x))
    (hvalue : ∀ x ∈ xs, Takes operand (value x) (V x)) (hfuel : xs.length < fuel) :
    Reads (operandStart fuel operand) (.ofSymbol .leftBrace ::
        (separated (xs.map fun x => key x ++ .ofSymbol .colon :: value x) ++
          .ofSymbol .rightBrace :: after)) after
      (fun e => ∃ pos es, e = .map pos es ∧
        List.Forall₂ (fun x p => K x p.1 ∧ V x p.2) xs es) := by
  refine look fun t ht => ?_
  rw [Token.kind_of_bare ht]
  refine advance.bind fun brace _ => ?_
  refine (separated_entries hstarts hkey hvalue hfuel).bind fun es hes => ?_
  exact (expect rfl).bind fun _ _ => .pure ⟨brace.pos, es, rfl, hes⟩

theorem separated_tuple {tokens : α → List Token} {P : α → Expr → Prop}
    (hstarts : ∀ x ∈ xs, Starts (tokens x)) (ho : ∀ x ∈ xs, Takes operand (tokens x) (P x))
    (hfuel : xs.length < fuel) :
    Reads (operandStart fuel operand) (.ofSymbol .leftParen :: (separated (xs.map tokens) ++
      ((if xs.length = 1 then [Token.ofSymbol .comma] else []) ++
        .ofSymbol .rightParen :: after))) after
      (fun e => ∃ pos es, e = .tuple pos es ∧ List.Forall₂ P xs es) := by
  refine start_paren ?_
  cases xs with
  | nil =>
    refine advance.bind fun paren _ => (accept_true rfl).known ?_
    exact .pure ⟨paren.pos, [], rfl, .nil⟩
  | cons x xs =>
    have hmore : Reads (Parser.sequence fuel operand (.symbol .rightParen))
        (separated (xs.map tokens) ++ .ofSymbol .rightParen :: after) after (List.Forall₂ P xs) :=
      separated_sequence (t := .ofSymbol .rightParen)
        (fun y hy => hstarts y (List.mem_cons_of_mem _ hy))
        (fun y hy => ho y (List.mem_cons_of_mem _ hy)) rfl (by decide) (Nat.lt_of_succ_lt hfuel)
    have htokens : separated ((x :: xs).map tokens) ++
        ((if (x :: xs).length = 1 then [Token.ofSymbol .comma] else []) ++
          .ofSymbol .rightParen :: after) = tokens x ++ .ofSymbol .comma ::
          (separated (xs.map tokens) ++ .ofSymbol .rightParen :: after) := by
      cases xs <;> simp [separated]
    rw [htokens]
    refine advance.bind fun paren _ => ?_
    refine (accept_start (hstarts x List.mem_cons_self) rfl).known ?_
    refine (ho x List.mem_cons_self _ _ rfl).bind fun e he => (accept_true rfl).known ?_
    exact hmore.bind fun es hes => .pure ⟨paren.pos, e :: es, rfl, .cons he hes⟩

end Reads

end Parser

theorem length_separated {tokens : List (List Token)} (h : ∀ ts ∈ tokens, Starts ts) :
    tokens.length ≤ (separated tokens).length ∧
      ∀ ts ∈ tokens, ts.length ≤ (separated tokens).length := by
  induction tokens with
  | nil => exact ⟨Nat.le_refl 0, nofun⟩
  | cons ts tokens ih =>
    obtain ⟨t, rest, rfl, -⟩ := h ts List.mem_cons_self
    obtain ⟨hcount, hlength⟩ := ih fun ts' hts' => h ts' (List.mem_cons_of_mem _ hts')
    have hcons : (separated ((t :: rest) :: tokens)).length ≥
        (t :: rest).length + (separated tokens).length := by
      cases tokens with
      | nil => simp [separated]
      | cons ts' tokens =>
        simp only [separated, List.length_append, List.length_cons]
        omega
    simp only [List.length_cons] at hcons ⊢
    refine ⟨by omega, fun ts' hts' => ?_⟩
    obtain rfl | hts' := List.mem_cons.1 hts'
    · simp only [List.length_cons]
      omega
    · have hle := hlength ts' hts'
      omega

end Spellbook
