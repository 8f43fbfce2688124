import Spellbook.Proofs.Program.Parser.Sequences
import Spellbook.Proofs.Program.Precedence

/-! The parser makes the same expression of the tokens of a printed one. Operations stand in
parentheses, so that no operator outside can take one of their operands. -/
namespace Spellbook

theorem Token.kind_ofWord (w : String) :
    (Token.ofWord w).kind = (match Keyword.ofWord? w with
      | none => .ident
      | some k => .keyword k) := by
  unfold Token.ofWord
  split <;> simp_all

theorem Token.lexeme_ofWord (w : String) : (Token.ofWord w).lexeme = w := by
  unfold Token.ofWord
  split <;> rfl

namespace Expr

/-- How many calls and members follow each other at the end of an expression. -/
def spine : Expr → Nat
  | .call _ callee _ => callee.spine + 1
  | .attr object _ => object.spine + 1
  | _ => 0

theorem tokens_first {e : Expr} (h : e.All Legible) :
    ∃ t ts, e.tokens = t :: ts ∧ t.kind.opens = true := by
  induction h with
  | @mk e hself _ ih =>
  cases e with
  | name id =>
    simp only [tokens]
    refine ⟨_, _, rfl, ?_⟩
    rw [Token.kind_ofWord]
    rcases hself.proper.2 with hword | hword
    · rw [hword]
      rfl
    · rw [hword]
      rfl
  | literal pos value =>
    simp only [tokens]
    refine ⟨_, _, rfl, ?_⟩
    cases value with
    | none => decide
    | int n => rfl
    | float x => exact absurd hself.plain Bool.false_ne_true
    | str s => rfl
    | bool b => cases b <;> decide
  | call pos callee args =>
    obtain ⟨t, ts, hts, ht⟩ := ih callee List.mem_cons_self
    simp only [tokens, hts]
    exact ⟨t, _, rfl, ht⟩
  | attr object member =>
    obtain ⟨t, ts, hts, ht⟩ := ih object List.mem_cons_self
    simp only [tokens, hts]
    exact ⟨t, _, rfl, ht⟩
  | template pos parts => exact absurd hself.plain Bool.false_ne_true
  | super pos method =>
    simp only [tokens]
    exact ⟨.ofWord "super", _, rfl, by decide⟩
  | unary | binary | preStep | postStep | index | slice | array | tuple | map =>
    simp only [tokens]
    exact ⟨_, _, rfl, rfl⟩

theorem starts_tokens {e : Expr} (h : e.All Legible) : Starts e.tokens := by
  obtain ⟨t, ts, hts, ht⟩ := tokens_first h
  exact ⟨t, ts, hts, Kind.starts_of_opens ht⟩

theorem spine_lt_length {e : Expr} (h : e.All Legible) : e.spine < e.tokens.length := by
  induction h with
  | @mk e hself hparts ih =>
  cases e with
  | call pos callee args =>
    have hcallee := ih callee List.mem_cons_self
    simp only [tokens, spine, List.length_append, List.length_singleton]
    omega
  | attr object member =>
    have hobject := ih object List.mem_cons_self
    simp only [tokens, spine, List.length_append, List.length_singleton]
    omega
  | _ =>
    obtain ⟨t, ts, hts, _⟩ := tokens_first (.mk hself hparts)
    rw [hts]
    exact Nat.succ_pos _

theorem bareAll_eq {es es' : List Expr}
    (h : List.Forall₂ (fun e e' => e'.bare = e.bare) es es') : bareAll es' = bareAll es := by
  induction h with
  | nil => rfl
  | cons he _ ih => rw [bareAll, bareAll, he, ih]

theorem bareEntries_eq {es es' : List (Expr × Expr)}
    (h : List.Forall₂ (fun p p' => p'.1.bare = p.1.bare ∧ p'.2.bare = p.2.bare) es es') :
    bareEntries es' = bareEntries es := by
  induction h with
  | nil => rfl
  | cons he _ ih => rw [bareEntries, bareEntries, he.1, he.2, ih]

end Expr

namespace Parser

/-- The operand parser takes back the expression before whatever closes it. -/
def TakesBack (operand : Operand) (e : Expr) : Prop :=
  ∀ (limit : Level) (t : Token) (ts : List Token), limit.rank < Level.call.rank →
    t.kind.closes = true →
    Reads (operand limit) (e.tokens ++ t :: ts) (t :: ts) (·.bare = e.bare)

theorem TakesBack.takes {operand : Operand} {e : Expr} (h : TakesBack operand e) :
    Takes operand e.tokens (·.bare = e.bare) :=
  fun t ts ht => h .lowest t ts (by decide) ht

namespace Reads

open Spellbook.Expr

variable {α : Type} {P : Expr → Prop} {operand : Operand} {e : Expr} {t : Token}
  {after : List Token} {fuel : Nat}

theorem sequence {es : List Expr} (hes : ∀ e ∈ es, e.All Legible)
    (ho : ∀ e ∈ es, TakesBack operand e) (hclose : t.kind.closes = true)
    (hcomma : t.kind ≠ .symbol .comma) (hfuel : es.length < fuel) :
    Reads (Parser.sequence fuel operand t.kind) (tokensAll es ++ t :: after) after
      (bareAll · = bareAll es) := by
  rw [tokensAll_eq]
  exact (separated_sequence (fun e he => starts_tokens (hes e he)) (fun e he => (ho e he).takes)
    hclose hcomma hfuel).imp fun _ => bareAll_eq

theorem grouping (inner : List Token)
    (hinner : ∃ t ts, inner = t :: ts ∧ t.kind ≠ .symbol .rightParen)
    (h : Reads (operand .lowest) (inner ++ .ofSymbol .rightParen :: after)
      (.ofSymbol .rightParen :: after) P) :
    Reads (operandStart fuel operand)
      (.ofSymbol .leftParen :: (inner ++ .ofSymbol .rightParen :: after)) after P := by
  obtain ⟨t, ts, rfl, ht⟩ := hinner
  refine start_paren ?_
  refine advance.bind fun _ _ => (accept_false ht).known ?_
  refine h.bind fun first hfirst => (accept_false (by decide)).known ?_
  exact (expect rfl).bind fun _ _ => .pure hfirst

theorem tuple {es : List Expr} (hes : ∀ e ∈ es, e.All Legible)
    (ho : ∀ e ∈ es, TakesBack operand e) (hfuel : es.length < fuel) {pos : Pos} :
    Reads (operandStart fuel operand) ((Expr.tuple pos es).tokens ++ after) after
      (·.bare = (Expr.tuple pos es).bare) := by
  simp only [tokens, tokensAll_eq, List.append_assoc, List.singleton_append]
  refine (separated_tuple (fun e he => starts_tokens (hes e he)) (fun e he => (ho e he).takes)
    hfuel).imp ?_
  rintro _ ⟨_, es', rfl, hes'⟩
  simp only [bare, bareAll_eq hes']

theorem index {object i : Expr} (hi : i.All Legible) (ho : TakesBack operand i) :
    Reads (Parser.bracketed operand object)
      (.ofSymbol .leftBracket :: (i.tokens ++ .ofSymbol .rightBracket :: after)) after
      (·.bare = .index .start object.bare i.bare) := by
  refine advance.bind fun bracket _ => (check_start (starts_tokens hi) rfl).known ?_
  refine (some (ho .lowest _ _ (by decide) rfl)).bind ?_
  rintro _ ⟨i', rfl, hi'⟩
  refine (check_false (by decide)).known ?_
  exact (expect rfl).bind fun _ _ => .pure (by simp only [bare, hi'])

theorem slice {object : Expr} {start stop : Option Expr} (hstart : ∀ e ∈ start, e.All Legible)
    (hstop : ∀ e ∈ stop, e.All Legible) (hostart : ∀ e ∈ start, TakesBack operand e)
    (hostop : ∀ e ∈ stop, TakesBack operand e) :
    Reads (Parser.bracketed operand object) (.ofSymbol .leftBracket :: (tokensBound start ++
        .ofSymbol .colon :: (tokensBound stop ++ .ofSymbol .rightBracket :: after))) after
      (·.bare = .slice .start object.bare (bareBound start) (bareBound stop)) := by
  have hrest : ∀ (bracket : Token) (start' : Option Expr), bareBound start' = bareBound start →
      Reads (do
        let _ ← Parser.expect (.symbol .colon)
        let stop ← if ← Parser.check (.symbol .rightBracket) then Pure.pure none
          else Option.some <$> operand .lowest
        let _ ← Parser.expect (.symbol .rightBracket)
        return Expr.slice bracket.pos object start' stop)
      (.ofSymbol .colon :: (tokensBound stop ++ .ofSymbol .rightBracket :: after)) after
      (·.bare = .slice .start object.bare (bareBound start) (bareBound stop)) := by
    intro bracket start' hstart'
    refine (expect rfl).bind fun _ _ => ?_
    cases stop with
    | none =>
      refine (check_true rfl).known ?_
      exact (expect rfl).bind fun _ _ => .pure (by simp only [bare, hstart', bareBound])
    | some e =>
      simp only [tokensBound]
      refine (check_start (starts_tokens (hstop e rfl)) rfl).known ?_
      refine (some (hostop e rfl .lowest _ _ (by decide) rfl)).bind ?_
      rintro _ ⟨e', rfl, he'⟩
      exact (expect rfl).bind fun _ _ => .pure (by simp only [bare, hstart', bareBound, he'])
  refine advance.bind fun bracket _ => ?_
  cases start with
  | none =>
    refine (check_true rfl).known ?_
    exact hrest bracket none rfl
  | some e =>
    simp only [tokensBound]
    refine (check_start (starts_tokens (hstart e rfl)) rfl).known ?_
    refine (some (hostart e rfl .lowest _ _ (by decide) rfl)).bind ?_
    rintro _ ⟨e', rfl, he'⟩
    refine (check_true rfl).known ?_
    exact hrest bracket (Option.some e') (by simp only [bareBound, he'])

/-! The start of an expression -/

theorem memberName {id : Ident} : Reads Parser.memberName (.ofWord id.name :: after) after
    (·.bare = id.bare) := by
  have hdone : Reads (do return identOf (← Parser.advance)) (.ofWord id.name :: after) after
      (·.bare = id.bare) := by
    refine advance.bind fun t ht => .pure ?_
    rw [Ident.bare, identOf, Token.lexeme_of_bare ht, Token.lexeme_ofWord]
    rfl
  refine look fun t ht => ?_
  rw [Token.kind_of_bare ht, Token.kind_ofWord]
  cases Keyword.ofWord? id.name with
  | none => exact hdone
  | some k => exact hdone

theorem name {id : Ident} (hid : id.IsVariable) :
    Reads (operandStart fuel operand) (.ofWord id.name :: after) after
      (·.bare = .name id.bare) := by
  have hdone : Reads (do return Expr.name (identOf (← Parser.advance)))
      (.ofWord id.name :: after) after (·.bare = .name id.bare) := by
    refine advance.bind fun t ht => .pure ?_
    simp only [bare, Ident.bare, identOf, Token.lexeme_of_bare ht, Token.lexeme_ofWord]
  refine look fun t ht => ?_
  rw [Token.kind_of_bare ht, Token.kind_ofWord]
  rcases hid.2 with hword | hword
  · rw [hword]
    exact hdone
  · rw [hword]
    exact hdone

theorem literal {pos : Pos} {value : Literal} (hl : (Expr.literal pos value).Legible) :
    Reads (operandStart fuel operand) (value.token :: after) after
      (·.bare = .literal .start value) := by
  refine look fun t ht => ?_
  have hvalue : value ≠ .none → Reads Parser.literal (value.token :: after) after
      (·.bare = .literal .start value) := by
    intro hne
    refine advance.bind fun t ht => ?_
    have hliteral : value.token.literal = Option.some value := by
      cases value with
      | none => exact absurd rfl hne
      | float x => exact absurd hl.plain Bool.false_ne_true
      | bool b => cases b <;> decide
      | _ => rfl
    rw [Token.literal_of_bare ht, hliteral]
    exact .pure rfl
  rw [Token.kind_of_bare ht]
  cases value with
  | none => exact advance.bind fun _ _ => .pure rfl
  | int n => exact hvalue nofun
  | float x => exact absurd hl.plain Bool.false_ne_true
  | str s => exact hvalue nofun
  | bool b =>
    cases b with
    | false => exact hvalue nofun
    | true => exact hvalue nofun

theorem super {pos : Pos} {method : Ident} :
    Reads (operandStart fuel operand) ((Expr.super pos method).tokens ++ after) after
      (·.bare = (Expr.super pos method).bare) := by
  refine look fun t ht => ?_
  rw [Token.kind_of_bare ht]
  refine advance.bind fun word _ => (expect rfl).bind fun _ _ => ?_
  refine memberName.bind fun id hid => .pure ?_
  simp only [bare, hid]

theorem start_unary {op : UnaryOp} (ho : TakesBack operand e) (ht : t.kind.closes = true) :
    Reads (operandStart fuel operand) (op.token :: (e.tokens ++ t :: after)) (t :: after)
      (·.bare = .unary .start op e.bare) := by
  have hunary : Reads (Parser.unary operand op) (op.token :: (e.tokens ++ t :: after)) (t :: after)
      (·.bare = .unary .start op e.bare) := by
    refine advance.bind fun _ _ => (ho .unary t after (by decide) ht).bind fun e' he' => .pure ?_
    simp only [bare, he']
  refine look fun t' ht' => ?_
  rw [Token.kind_of_bare ht']
  cases op <;> exact hunary

theorem start_preStep {step : Step} {id : Ident} (ho : TakesBack operand (.name id))
    (ht : t.kind.closes = true) :
    Reads (operandStart fuel operand)
      (.ofSymbol step.symbol :: .ofWord id.name :: t :: after) (t :: after)
      (·.bare = .preStep .start step id.bare) := by
  have hstep : Reads (Parser.preStep operand step)
      (.ofSymbol step.symbol :: .ofWord id.name :: t :: after) (t :: after)
      (·.bare = .preStep .start step id.bare) := by
    have htarget := ho .unary t after (by decide) ht
    simp only [tokens, bare, List.singleton_append] at htarget
    refine advance.bind fun _ _ => htarget.bind fun e' he' => ?_
    obtain ⟨id', rfl, hid'⟩ := eq_name_of_bare he'
    exact .pure (by simp only [bare, hid'])
  refine look fun t' ht' => ?_
  rw [Token.kind_of_bare ht']
  cases step <;> exact hstep

theorem start_array {es : List Expr} (hes : ∀ e ∈ es, e.All Legible)
    (ho : ∀ e ∈ es, TakesBack operand e) (hfuel : es.length < fuel) :
    Reads (operandStart fuel operand)
      (.ofSymbol .leftBracket :: (tokensAll es ++ .ofSymbol .rightBracket :: after)) after
      (·.bare = .array .start (bareAll es)) := by
  rw [tokensAll_eq]
  refine (separated_array (fun e he => starts_tokens (hes e he)) (fun e he => (ho e he).takes)
    hfuel).imp ?_
  rintro _ ⟨_, es', rfl, hes'⟩
  simp only [bare, bareAll_eq hes']

theorem start_map {es : List (Expr × Expr)}
    (hes : ∀ e ∈ es.flatMap fun entry => [entry.1, entry.2], e.All Legible)
    (ho : ∀ e ∈ es.flatMap fun entry => [entry.1, entry.2], TakesBack operand e)
    (hfuel : es.length < fuel) :
    Reads (operandStart fuel operand)
      (.ofSymbol .leftBrace :: (tokensEntries es ++ .ofSymbol .rightBrace :: after)) after
      (·.bare = .map .start (bareEntries es)) := by
  have hkey : ∀ p ∈ es, p.1 ∈ es.flatMap fun entry => [entry.1, entry.2] := fun p hp =>
    List.mem_flatMap.2 ⟨p, hp, List.mem_cons_self⟩
  have hvalue : ∀ p ∈ es, p.2 ∈ es.flatMap fun entry => [entry.1, entry.2] := fun p hp =>
    List.mem_flatMap.2 ⟨p, hp, List.mem_cons_of_mem _ List.mem_cons_self⟩
  rw [tokensEntries_eq]
  refine (separated_map (fun p hp => starts_tokens (hes _ (hkey p hp)))
    (fun p hp => (ho _ (hkey p hp)).takes) (fun p hp => (ho _ (hvalue p hp)).takes) hfuel).imp ?_
  rintro _ ⟨_, es', rfl, hes'⟩
  simp only [bare, bareEntries_eq hes']

/-! What follows an expression -/

theorem climb_stop {limit : Level} {left : Expr} (ht : t.kind.closes = true) :
    Reads (Parser.climb operand limit (fuel + 1) left) (t :: after) (t :: after) (· = left) := by
  have hlow : ¬ limit.rank < Level.lowest.rank := Nat.not_lt_zero _
  refine (level (ne_of_test ht rfl)).bind fun next hnext => ?_
  rw [hnext, Kind.ofKind_of_closes ht, if_neg hlow]
  exact .pure rfl

theorem climb_step {limit next : Level} {left : Expr} {before mid : List Token} {Q : Expr → Prop}
    (hlevel : Reads Parser.level before before (· = next)) (hlt : limit.rank < next.rank)
    (hcontinued : Reads (Parser.continued fuel operand left) before mid P)
    (hclimb : ∀ e, P e → Reads (Parser.climb operand limit fuel e) mid after Q) :
    Reads (Parser.climb operand limit (fuel + 1) left) before after Q := by
  refine hlevel.bind fun _ hnext => ?_
  rw [hnext, if_pos hlt]
  exact hcontinued.bind hclimb

theorem continued_call {callee : Expr} {args : List Expr} (hargs : ∀ e ∈ args, e.All Legible)
    (ho : ∀ e ∈ args, TakesBack operand e) (hfuel : args.length < fuel) :
    Reads (continued fuel operand callee)
      (.ofSymbol .leftParen :: (tokensAll args ++ .ofSymbol .rightParen :: after)) after
      (·.bare = .call .start callee.bare (bareAll args)) := by
  refine look fun t ht => ?_
  rw [Token.kind_of_bare ht]
  refine advance.bind fun paren _ => ?_
  refine (sequence (t := .ofSymbol .rightParen) hargs ho rfl (by decide) hfuel).bind ?_
  intro args' hargs'
  exact .pure (by simp only [bare, hargs'])

theorem continued_attr {object : Expr} {member : Ident} :
    Reads (continued fuel operand object) (.ofSymbol .dot :: .ofWord member.name :: after) after
      (·.bare = .attr object.bare member.bare) := by
  refine look fun t ht => ?_
  rw [Token.kind_of_bare ht]
  refine advance.bind fun _ _ => memberName.bind fun id hid => .pure ?_
  simp only [bare, hid]

theorem continued_postStep {step : Step} {id : Ident} :
    Reads (continued fuel operand (.name id)) (.ofSymbol step.symbol :: after) after
      (·.bare = .postStep .start step id.bare) := by
  refine look fun t ht => ?_
  rw [Token.kind_of_bare ht]
  cases step with
  | increment => exact advance.bind fun _ _ => .pure (by simp only [bare])
  | decrement => exact advance.bind fun _ _ => .pure (by simp only [bare])

theorem continued_bracketed {object : Expr} {before : List Token}
    (h : Reads (bracketed operand object) (.ofSymbol .leftBracket :: before) after P) :
    Reads (continued fuel operand object) (.ofSymbol .leftBracket :: before) after P := by
  refine look fun t ht => ?_
  rw [Token.kind_of_bare ht]
  exact h

theorem continued_binary {op : BinaryOp} {left right : Expr} {before : List Token}
    (hop : binaryOp? t.kind = Option.some op) (hpow : t.kind ≠ .symbol .power)
    (hright : Reads (operand (Level.ofKind t.kind)) before after (·.bare = right.bare)) :
    Reads (continued fuel operand left) (t :: before) after
      (·.bare = .binary .start op left.bare right.bare) := by
  refine look fun t' ht => ?_
  rw [Token.kind_of_bare ht]
  -- only the last two branches are for operators
  split
  iterate 6
    rename_i heq
    rw [heq] at hop
    cases hop
  · rename_i heq
    exact absurd heq hpow
  · rw [hop]
    refine advance.bind fun _ _ => hright.bind fun right' hright' => .pure ?_
    simp only [bare, hright']

theorem continued_pow {left right : Expr} {before : List Token}
    (hright : Reads (operand .product) before after (·.bare = right.bare)) :
    Reads (continued fuel operand left) (.ofSymbol .power :: before) after
      (·.bare = .binary .start (.operator .pow) left.bare right.bare) := by
  refine look fun t' ht => ?_
  rw [Token.kind_of_bare ht]
  refine advance.bind fun _ _ => hright.bind fun right' hright' => .pure ?_
  simp only [bare, hright']

theorem continued_notIn {left right : Expr} {before : List Token}
    (hright : Reads (operand .comparison) before after (·.bare = right.bare)) :
    Reads (continued fuel operand left) (.ofWord "not" :: .ofWord "in" :: before) after
      (·.bare = .binary .start (.operator .notIn) left.bare right.bare) := by
  refine look fun t' ht => ?_
  rw [Token.kind_of_bare ht]
  refine advance.bind fun _ _ => (expect (by decide)).bind fun _ _ => ?_
  refine hright.bind fun right' hright' => .pure ?_
  simp only [bare, hright']

theorem climb_once {next : Level} {left : Expr} {before : List Token}
    (hlevel : Reads Parser.level before before (· = next)) (hlow : 0 < next.rank)
    (hcontinued : Reads (Parser.continued (fuel + 1) operand left) before (t :: after) P)
    (ht : t.kind.closes = true) :
    Reads (Parser.climb operand .lowest (fuel + 2) left) before (t :: after) P :=
  climb_step hlevel hlow hcontinued fun _ he => (climb_stop ht).imp fun _ h => h ▸ he

theorem binaryOp?_token {op : BinaryOp} (hnotIn : op ≠ .operator .notIn)
    (hpow : op ≠ .operator .pow) :
    ∃ t, op.tokens = [t] ∧ binaryOp? t.kind = Option.some op ∧ t.kind ≠ .symbol .power ∧
      t.kind ≠ .keyword .not_ ∧ Level.ofKind t.kind = op.level := by
  cases op with
  | connective c => cases c <;> exact ⟨_, rfl, by decide⟩
  | operator o => cases o <;> first | contradiction | exact ⟨_, rfl, by decide⟩

theorem level_tokens {op : BinaryOp} : Reads Parser.level (op.tokens ++ after) (op.tokens ++ after)
    (· = op.level) := by
  by_cases hnotIn : op = .operator .notIn
  · subst hnotIn
    exact level_notIn (by decide) (by decide)
  by_cases hpow : op = .operator .pow
  · subst hpow
    exact level (by decide)
  obtain ⟨t, hts, -, -, hnot, hlevel⟩ := binaryOp?_token hnotIn hpow
  rw [hts, ← hlevel]
  exact level hnot

theorem continued_tokens {op : BinaryOp} {left right : Expr} {before : List Token}
    (hright : Reads (operand op.rightLimit) before after (·.bare = right.bare)) :
    Reads (continued fuel operand left) (op.tokens ++ before) after
      (·.bare = .binary .start op left.bare right.bare) := by
  by_cases hnotIn : op = .operator .notIn
  · subst hnotIn
    exact continued_notIn hright
  by_cases hpow : op = .operator .pow
  · subst hpow
    exact continued_pow hright
  obtain ⟨t, hts, hop, hpow', -, hlevel⟩ := binaryOp?_token hnotIn hpow
  rw [BinaryOp.rightLimit, if_neg hpow, ← hlevel] at hright
  rw [hts]
  exact continued_binary hop hpow' hright

theorem climb_binary {op : BinaryOp} {left right : Expr} (ho : TakesBack operand right)
    (ht : t.kind.closes = true) :
    Reads (Parser.climb operand .lowest (fuel + 2) left) (op.tokens ++ (right.tokens ++ t :: after))
      (t :: after) (·.bare = .binary .start op left.bare right.bare) := by
  have hlow : 0 < op.level.rank ∧ op.rightLimit.rank < Level.call.rank := by
    cases op with
    | connective c => cases c <;> decide
    | operator o => cases o <;> decide
  exact climb_once level_tokens hlow.1 (continued_tokens (ho _ t after hlow.2 ht)) ht

end Reads

open Spellbook.Expr

/-- The expression is read as what stands before the rest. Calls and members that end it have
been taken from the fuel by then. -/
def Opens (fuel : Nat) (e : Expr) : Prop :=
  ∀ (limit : Level) (before after : List Token) (Q : Expr → Prop),
    limit.rank < Level.call.rank →
    (∀ e', e'.bare = e.bare →
      Reads (climb (exprAt fuel) limit (fuel - e.spine) e') before after Q) →
    Reads (exprAt (fuel + 1) limit) (e.tokens ++ before) after Q

theorem Opens.takesBack {fuel : Nat} {e : Expr} (h : Opens fuel e) (hspine : e.spine < fuel) :
    TakesBack (exprAt (fuel + 1)) e := by
  intro limit t ts hlimit ht
  refine h limit _ _ _ hlimit fun e' he' => ?_
  obtain ⟨k, hk⟩ := Nat.exists_eq_succ_of_ne_zero (Nat.sub_ne_zero_of_lt hspine)
  rw [hk]
  exact (Reads.climb_stop ht).imp fun _ h => h ▸ he'

theorem Opens.ofStart {fuel : Nat} {e : Expr} (hspine : e.spine = 0)
    (h : ∀ before, Reads (operandStart fuel (exprAt fuel)) (e.tokens ++ before) before
      (·.bare = e.bare)) : Opens fuel e := by
  intro limit before after Q _ hclimb
  rw [hspine, Nat.sub_zero] at hclimb
  exact (h before).bind hclimb

theorem exprAt_start {P : Expr → Prop} {fuel : Nat} {limit : Level} {t : Token}
    {before after : List Token} (hfuel : 0 < fuel) (ht : t.kind.closes = true)
    (h : Reads (operandStart fuel (exprAt fuel)) before (t :: after) P) :
    Reads (exprAt (fuel + 1) limit) before (t :: after) P := by
  obtain ⟨k, rfl⟩ := Nat.exists_eq_succ_of_ne_zero (Nat.ne_zero_of_lt hfuel)
  exact h.bind fun e he => (Reads.climb_stop ht).imp fun _ h => h ▸ he

theorem opens_name {id : Ident} (hid : id.IsVariable) (fuel : Nat) : Opens fuel (.name id) := by
  refine .ofStart rfl fun before => ?_
  simp only [tokens, bare]
  exact .name hid

theorem opens_grouped {e object : Expr} {fuel : Nat} (tail : List Token)
    (hobject : object.All Legible) (hopens : Opens fuel object)
    (htokens : e.tokens =
      .ofSymbol .leftParen :: (object.tokens ++ tail ++ [Token.ofSymbol .rightParen]))
    (hspine : e.spine = 0)
    (h : ∀ object' before, object'.bare = object.bare →
      Reads (climb (exprAt fuel) .lowest (fuel - object.spine) object')
        (tail ++ .ofSymbol .rightParen :: before) (.ofSymbol .rightParen :: before)
        (·.bare = e.bare)) : Opens (fuel + 1) e := by
  refine .ofStart hspine fun before => ?_
  have hfirst : ∃ t ts, object.tokens ++ tail = t :: ts ∧ t.kind ≠ .symbol .rightParen := by
    obtain ⟨t, ts, hts, ht⟩ := tokens_first hobject
    exact ⟨t, ts ++ tail, by rw [hts, List.cons_append], ne_of_test ht rfl⟩
  rw [htokens, List.cons_append, List.append_assoc, List.singleton_append]
  refine .grouping _ hfirst ?_
  rw [List.append_assoc]
  exact hopens .lowest _ _ _ (by decide) fun object' hobject' => h object' before hobject'

theorem length_le_tokensAll {es : List Expr} (hes : ∀ e ∈ es, e.All Legible) :
    es.length ≤ (tokensAll es).length ∧ ∀ e ∈ es, e.tokens.length ≤ (tokensAll es).length := by
  obtain ⟨hcount, hlength⟩ :=
    length_separated (List.forall_mem_map.2 fun e he => starts_tokens (hes e he))
  rw [tokensAll_eq]
  exact ⟨List.length_map tokens ▸ hcount, fun e he => hlength _ (List.mem_map_of_mem he)⟩

theorem length_le_tokensEntries {es : List (Expr × Expr)}
    (hes : ∀ e ∈ es.flatMap fun entry => [entry.1, entry.2], e.All Legible) :
    es.length ≤ (tokensEntries es).length ∧
      ∀ e ∈ es.flatMap fun entry => [entry.1, entry.2],
        e.tokens.length ≤ (tokensEntries es).length := by
  have hstarts : ∀ p ∈ es, Starts (p.1.tokens ++ .ofSymbol .colon :: p.2.tokens) := fun p hp =>
    (starts_tokens (hes _ (List.mem_flatMap.2 ⟨p, hp, List.mem_cons_self⟩))).append _
  obtain ⟨hcount, hlength⟩ := length_separated (List.forall_mem_map.2 hstarts)
  rw [List.length_map] at hcount
  rw [tokensEntries_eq]
  refine ⟨hcount, fun e he => ?_⟩
  obtain ⟨p, hp, he⟩ := List.mem_flatMap.1 he
  have hle := hlength _ (List.mem_map_of_mem hp)
  simp only [List.length_append, List.length_cons] at hle
  rcases List.mem_cons.1 he with rfl | he
  · omega
  · obtain rfl := List.mem_singleton.1 he
    omega

/-- With as much fuel as it has tokens, the expression is read as what stands before the rest. -/
def Readable (e : Expr) : Prop := ∀ fuel, e.tokens.length ≤ fuel → Opens fuel e

theorem Readable.takesBack {e : Expr} (h : Readable e) (he : e.All Legible) {fuel : Nat}
    (hfuel : e.tokens.length < fuel) : TakesBack (exprAt fuel) e := by
  obtain ⟨fuel, rfl⟩ := Nat.exists_eq_succ_of_ne_zero (Nat.ne_zero_of_lt hfuel)
  have hspine := spine_lt_length he
  exact (h fuel (Nat.le_of_lt_succ hfuel)).takesBack (by omega)

section

variable {pos : Pos} {e object left right callee i operand : Expr} {args elements : List Expr}

theorem readable_unary {op : UnaryOp} (he : operand.All Legible) (h : Readable operand) :
    Readable (.unary pos op operand) := by
  intro fuel hfuel
  refine .ofStart rfl fun before => ?_
  simp only [tokens, bare, List.append_assoc, List.singleton_append, List.length_cons,
    List.length_append, List.length_nil] at hfuel ⊢
  obtain ⟨k, rfl⟩ : ∃ k, fuel = k + 1 := ⟨fuel - 1, by omega⟩
  have hoperand : TakesBack (exprAt k) operand := h.takesBack he (by omega)
  refine .grouping (op.token :: operand.tokens) ⟨_, _, rfl, ?_⟩ ?_
  · cases op <;> decide
  · exact exprAt_start (by omega) rfl (.start_unary hoperand rfl)

theorem readable_binary {op : BinaryOp} (hleft : left.All Legible) (hright : right.All Legible)
    (hl : Readable left) (hr : Readable right) : Readable (.binary pos op left right) := by
  intro fuel hfuel
  have hspine := spine_lt_length hleft
  simp only [tokens, List.length_append, List.length_singleton] at hfuel
  obtain ⟨k, rfl⟩ : ∃ k, fuel = k + 1 := ⟨fuel - 1, by omega⟩
  obtain ⟨m, hm⟩ : ∃ m, k - left.spine = m + 2 := ⟨k - left.spine - 2, by omega⟩
  have htakes : TakesBack (exprAt k) right := hr.takesBack hright (by omega)
  refine opens_grouped (op.tokens ++ right.tokens) hleft (hl k (by omega)) (by simp [tokens]) rfl
    fun left' before hleft' => ?_
  rw [hm, List.append_assoc, bare, ← hleft']
  exact .climb_binary htakes rfl

theorem readable_preStep {step : Step} {target : Ident} (hid : target.IsVariable) :
    Readable (.preStep pos step target) := by
  intro fuel hfuel
  refine .ofStart rfl fun before => ?_
  simp only [tokens, bare, List.append_assoc, List.singleton_append, List.length_cons,
    List.length_append, List.length_nil] at hfuel ⊢
  obtain ⟨k, rfl⟩ : ∃ k, fuel = k + 3 := ⟨fuel - 3, by omega⟩
  have htarget : TakesBack (exprAt (k + 2)) (.name target) :=
    (opens_name hid (k + 1)).takesBack (Nat.succ_pos k)
  refine .grouping [.ofSymbol step.symbol, .ofWord target.name] ⟨_, _, rfl, ?_⟩ ?_
  · cases step <;> decide
  · exact exprAt_start (by omega) rfl (.start_preStep htarget rfl)

theorem readable_postStep {step : Step} {target : Ident} (hid : target.IsVariable) :
    Readable (.postStep pos step target) := by
  intro fuel hfuel
  have hname : (Expr.name target).All Legible := .mk ⟨hid, rfl⟩ (List.forall_mem_nil _)
  simp only [tokens, List.length_append, List.length_singleton] at hfuel
  obtain ⟨k, rfl⟩ : ∃ k, fuel = k + 3 := ⟨fuel - 3, by omega⟩
  refine opens_grouped [.ofSymbol step.symbol] hname (opens_name hid (k + 2)) (by simp [tokens])
    rfl fun e' before he' => ?_
  obtain ⟨target', rfl, htarget'⟩ := eq_name_of_bare (he'.trans (by rw [bare]))
  have hlevel : Reads level (.ofSymbol step.symbol :: .ofSymbol .rightParen :: before)
      (.ofSymbol step.symbol :: .ofSymbol .rightParen :: before) (· = .step) := by
    cases step <;> exact .level (by decide)
  refine .climb_once hlevel (by decide) ?_ rfl
  rw [bare, ← htarget']
  exact .continued_postStep

theorem readable_call (hcallee : callee.All Legible) (hargs : ∀ e ∈ args, e.All Legible)
    (hc : Readable callee) (ha : ∀ e ∈ args, Readable e) : Readable (.call pos callee args) := by
  intro fuel hfuel limit before after Q hlimit hclimb
  have hspine := spine_lt_length hcallee
  obtain ⟨hcount, hlength⟩ := length_le_tokensAll hargs
  simp only [tokens, bare, spine, List.append_assoc, List.singleton_append, List.length_append,
    List.length_cons, List.length_nil] at hfuel hclimb ⊢
  obtain ⟨k, hk⟩ : ∃ k, fuel - callee.spine = k + 1 := ⟨fuel - callee.spine - 1, by omega⟩
  have hk' : fuel - (callee.spine + 1) = k := by omega
  have htakes : ∀ e ∈ args, TakesBack (exprAt fuel) e := by
    intro e he
    have hlt := hlength e he
    exact (ha e he).takesBack (hargs e he) (by omega)
  refine hc fuel (by omega) limit _ _ _ hlimit fun callee' hcallee' => ?_
  rw [hk]
  refine .climb_step (.level (by decide)) hlimit
    (.continued_call hargs htakes (by omega)) fun e he => ?_
  rw [← hk']
  exact hclimb e (by rw [he, hcallee'])

theorem readable_index (hobject : object.All Legible) (hi : i.All Legible) (ho : Readable object)
    (h : Readable i) : Readable (.index pos object i) := by
  intro fuel hfuel
  have hspine := spine_lt_length hobject
  simp only [tokens, List.length_append, List.length_cons, List.length_nil] at hfuel
  obtain ⟨k, rfl⟩ : ∃ k, fuel = k + 1 := ⟨fuel - 1, by omega⟩
  obtain ⟨m, hm⟩ : ∃ m, k - object.spine = m + 2 := ⟨k - object.spine - 2, by omega⟩
  have htakes : TakesBack (exprAt k) i := h.takesBack hi (by omega)
  refine opens_grouped
    ([Token.ofSymbol .leftBracket] ++ i.tokens ++ [Token.ofSymbol .rightBracket]) hobject
    (ho k (by omega)) (by simp [tokens]) rfl fun object' before hobject' => ?_
  rw [hm, bare, ← hobject']
  simp only [List.append_assoc, List.singleton_append]
  refine .climb_once (.level (by decide)) (by decide) (.continued_bracketed ?_) rfl
  exact .index hi htakes

theorem readable_slice {start stop : Option Expr} (hobject : object.All Legible)
    (hstart : ∀ e ∈ start, e.All Legible) (hstop : ∀ e ∈ stop, e.All Legible)
    (ho : Readable object) (hs : ∀ e ∈ start, Readable e) (ht : ∀ e ∈ stop, Readable e) :
    Readable (.slice pos object start stop) := by
  intro fuel hfuel
  have hspine := spine_lt_length hobject
  have hbound : ∀ {bound : Option Expr} {e : Expr}, e ∈ bound →
      e.tokens.length = (tokensBound bound).length := by
    rintro _ e rfl
    rw [tokensBound]
  simp only [tokens, List.length_append, List.length_cons, List.length_nil] at hfuel
  obtain ⟨k, rfl⟩ : ∃ k, fuel = k + 1 := ⟨fuel - 1, by omega⟩
  obtain ⟨m, hm⟩ : ∃ m, k - object.spine = m + 2 := ⟨k - object.spine - 2, by omega⟩
  refine opens_grouped ([Token.ofSymbol .leftBracket] ++ tokensBound start ++
    [Token.ofSymbol .colon] ++ tokensBound stop ++ [Token.ofSymbol .rightBracket]) hobject
    (ho k (by omega)) (by simp [tokens]) rfl fun object' before hobject' => ?_
  rw [hm, bare, ← hobject']
  simp only [List.append_assoc, List.singleton_append]
  refine .climb_once (.level (by decide)) (by decide) (.continued_bracketed ?_) rfl
  refine .slice hstart hstop (fun e he => ?_) fun e he => ?_
  · have hlength := hbound he
    exact (hs e he).takesBack (hstart e he) (by omega)
  · have hlength := hbound he
    exact (ht e he).takesBack (hstop e he) (by omega)

theorem readable_attr {member : Ident} (hobject : object.All Legible) (ho : Readable object) :
    Readable (.attr object member) := by
  intro fuel hfuel limit before after Q hlimit hclimb
  have hspine := spine_lt_length hobject
  simp only [tokens, bare, spine, List.append_assoc, List.singleton_append,
    List.length_append] at hfuel hclimb ⊢
  obtain ⟨k, hk⟩ : ∃ k, fuel - object.spine = k + 1 := ⟨fuel - object.spine - 1, by omega⟩
  have hk' : fuel - (object.spine + 1) = k := by omega
  refine ho fuel (by omega) limit _ _ _ hlimit fun object' hobject' => ?_
  rw [hk]
  refine .climb_step (.level (by decide)) hlimit .continued_attr fun e he => ?_
  rw [← hk']
  exact hclimb e (by rw [he, hobject'])

theorem readable_array (helements : ∀ e ∈ elements, e.All Legible)
    (h : ∀ e ∈ elements, Readable e) : Readable (.array pos elements) := by
  intro fuel hfuel
  obtain ⟨hcount, hlength⟩ := length_le_tokensAll helements
  refine .ofStart rfl fun before => ?_
  simp only [tokens, bare, List.append_assoc, List.singleton_append, List.length_cons,
    List.length_append, List.length_nil] at hfuel ⊢
  refine .start_array helements (fun e he => ?_) (by omega)
  have hlt := hlength e he
  exact (h e he).takesBack (helements e he) (by omega)

theorem readable_tuple (helements : ∀ e ∈ elements, e.All Legible)
    (h : ∀ e ∈ elements, Readable e) : Readable (.tuple pos elements) := by
  intro fuel hfuel
  obtain ⟨hcount, hlength⟩ := length_le_tokensAll helements
  refine .ofStart rfl fun before => ?_
  simp only [tokens, List.length_append, List.length_singleton] at hfuel
  refine .tuple helements (fun e he => ?_) (by omega)
  have hlt := hlength e he
  exact (h e he).takesBack (helements e he) (by omega)

theorem readable_map {entries : List (Expr × Expr)}
    (hentries : ∀ e ∈ entries.flatMap fun entry => [entry.1, entry.2], e.All Legible)
    (h : ∀ e ∈ entries.flatMap fun entry => [entry.1, entry.2], Readable e) :
    Readable (.map pos entries) := by
  intro fuel hfuel
  obtain ⟨hcount, hlength⟩ := length_le_tokensEntries hentries
  refine .ofStart rfl fun before => ?_
  simp only [tokens, bare, List.append_assoc, List.singleton_append, List.length_cons,
    List.length_append, List.length_nil] at hfuel ⊢
  refine .start_map hentries (fun e he => ?_) (by omega)
  have hlt := hlength e he
  exact (h e he).takesBack (hentries e he) (by omega)

theorem readable (he : e.All Legible) : Readable e := by
  induction he with
  | @mk e hself hparts ih =>
  cases e with
  | name id => exact fun fuel _ => opens_name hself.proper fuel
  | literal pos value =>
    refine fun fuel _ => .ofStart rfl fun before => ?_
    simp only [tokens, bare]
    exact .literal hself
  | unary pos op operand =>
    exact readable_unary (hparts operand List.mem_cons_self) (ih operand List.mem_cons_self)
  | binary pos op left right =>
    have hright : right ∈ (Expr.binary pos op left right).parts :=
      List.mem_cons_of_mem _ List.mem_cons_self
    exact readable_binary (hparts left List.mem_cons_self) (hparts right hright)
      (ih left List.mem_cons_self) (ih right hright)
  | preStep pos step target => exact readable_preStep hself.proper
  | postStep pos step target => exact readable_postStep hself.proper
  | call pos callee args =>
    exact readable_call (hparts callee List.mem_cons_self)
      (fun e he => hparts e (List.mem_cons_of_mem _ he)) (ih callee List.mem_cons_self)
      (fun e he => ih e (List.mem_cons_of_mem _ he))
  | index pos object i =>
    have hi : i ∈ (Expr.index pos object i).parts := List.mem_cons_of_mem _ List.mem_cons_self
    exact readable_index (hparts object List.mem_cons_self) (hparts i hi)
      (ih object List.mem_cons_self) (ih i hi)
  | slice pos object start stop =>
    have hstart : ∀ e ∈ start, e ∈ (Expr.slice pos object start stop).parts := fun e he =>
      List.mem_cons_of_mem _ (List.mem_append_left _ (Option.mem_toList.2 he))
    have hstop : ∀ e ∈ stop, e ∈ (Expr.slice pos object start stop).parts := fun e he =>
      List.mem_cons_of_mem _ (List.mem_append_right _ (Option.mem_toList.2 he))
    exact readable_slice (hparts object List.mem_cons_self) (fun e he => hparts e (hstart e he))
      (fun e he => hparts e (hstop e he)) (ih object List.mem_cons_self)
      (fun e he => ih e (hstart e he)) (fun e he => ih e (hstop e he))
  | attr object member =>
    exact readable_attr (hparts object List.mem_cons_self) (ih object List.mem_cons_self)
  | array pos elements => exact readable_array hparts ih
  | tuple pos elements => exact readable_tuple hparts ih
  | map pos entries => exact readable_map hparts ih
  | template pos parts => exact absurd hself.plain Bool.false_ne_true
  | super pos method => exact fun fuel _ => .ofStart rfl fun before => .super

end

end Parser

end Spellbook
