import Spellbook.Proofs.Program.Printer
import Spellbook.Proofs.Value.Plain
import Spellbook.Store.Printer

/-! Plain values are written as expressions are: what a container shows of its parts is lexed into
the tokens of a literal. The sign of an integer is a token of its own. -/
namespace Spellbook

namespace Number

variable {n : Int64}

theorem toInt_neg (hn : n ≠ Int64.minValue) : (-n).toInt = -n.toInt := by
  have hne : n.toInt ≠ -2 ^ 63 := fun heq =>
    hn (Int64.toInt_inj.1 (heq.trans Int64.toInt_minValue.symm))
  have hlow := n.le_toInt
  have hhigh := n.toInt_lt
  rw [Int64.toInt_neg]
  apply Int.bmod_eq_of_le <;> omega

theorem toString_neg (hneg : n.toInt < 0) (hn : n ≠ Int64.minValue) :
    toString n.toInt = "-" ++ toString (-n) := by
  show n.toInt.repr = "-" ++ (-n).toInt.repr
  rw [toInt_neg hn]
  cases hint : n.toInt with
  | ofNat k =>
    rw [hint] at hneg
    exact absurd hneg (Int.not_lt.2 (Int.natCast_nonneg k))
  | negSucc k => rfl

end Number

theorem lexes_bracketed {opening closing : Symbol} (hopening : opening.isMark = true)
    (hclosing : closing.isMark = true) {tokens : List Token} {text : String} {more : List Char}
    (h : Lexes tokens text.toList (closing.text.toList ++ more)) :
    Lexes (.ofSymbol opening :: (tokens ++ [Token.ofSymbol closing]))
      (opening.text ++ text ++ closing.text).toList more := by
  rw [String.toList_append, String.toList_append, List.append_assoc]
  exact (Lexes.mark hopening _).append (h.append (.mark hclosing more))

def Value.tokens : Value → List Token
  | .none => [Literal.none.token]
  | .bool b => [(Literal.bool b).token]
  | .int n =>
    if n.toInt < 0 then [.ofSymbol .minus, (Literal.int (-n)).token] else [(Literal.int n).token]
  | .str s => [(Literal.str s).token]
  | _ => []

/-- The value is written as a literal, or as the sign and the literal of its negative. -/
inductive Value.IsWritten : Value → List Token → String → Prop where
  | literal {l : Literal} (hl : (Expr.literal .start l).Legible) :
    IsWritten (.ofLiteral l) [l.token] l.print
  | negative {n : Int64} (hn : n ≠ Int64.minValue)
    (hl : (Expr.literal .start (.int (-n))).Legible) :
    IsWritten (.int n) [.ofSymbol .minus, (Literal.int (-n)).token]
      ("-" ++ (Literal.int (-n)).print)

theorem Value.IsWritten.lexes {v : Value} {tokens : List Token} {text : String}
    (h : v.IsWritten tokens text) {more : List Char} (hm : Closes more) :
    Lexes tokens text.toList more := by
  cases h with
  | literal hl => exact hm.literal hl
  | negative _ hl =>
    obtain ⟨c, cs, hcs, hc⟩ := Expr.print_first (.mk hl (List.forall_mem_nil _))
    rw [Expr.print] at hcs
    rw [String.toList_append]
    refine .append (.symbol (s := .minus) (by decide) ?_) (hm.literal hl)
    rw [hcs]
    exact hc.detached _

/-- A character that a written value can start with. -/
def StartsValue (c : Char) : Prop := c = '-' ∨ IsFirst c

instance : DecidablePred StartsValue := fun c => inferInstanceAs (Decidable (c = '-' ∨ IsFirst c))

theorem Value.IsWritten.text_first {v : Value} {tokens : List Token} {text : String}
    (h : v.IsWritten tokens text) : ∃ c cs, text.toList = c :: cs ∧ StartsValue c := by
  cases h with
  | literal hl =>
    obtain ⟨c, cs, hcs, hc⟩ := Expr.print_first (.mk hl (List.forall_mem_nil _))
    rw [Expr.print] at hcs
    exact ⟨c, cs, hcs, .inr hc⟩
  | negative _ _ =>
    rw [String.toList_append]
    exact ⟨'-', _, rfl, .inl rfl⟩

namespace Store

variable {s : Store} {v : Value} {n : Nat} {more : List Char}

theorem isWritten_none :
    Value.none.IsWritten Value.none.tokens (nested (s.printAt (n + 1)) .none) :=
  .literal (l := .none) ⟨trivial, rfl⟩

theorem isWritten_scalar (hv : v.IsScalar) :
    v.IsWritten v.tokens (nested (s.printAt (n + 1)) v) := by
  cases v with
  | bool b => cases b <;> exact .literal (l := .bool _) ⟨trivial, rfl⟩
  | int n =>
    show (Value.int n).IsWritten (Value.int n).tokens (toString n.toInt)
    simp only [Value.tokens]
    split
    · rename_i hneg
      rw [Number.toString_neg hneg hv]
      refine .negative hv ⟨?_, rfl⟩
      show 0 ≤ (-n).toInt
      rw [Number.toInt_neg hv]
      omega
    · rename_i hpos
      exact .literal (l := .int n) ⟨Int.not_lt.1 hpos, rfl⟩
  | str text =>
    refine .literal (l := .str text) ⟨trivial, ?_⟩
    exact List.all_eq_true.2 fun c hc => bne_iff_ne.2 (hv c hc)
  | _ => exact hv.elim

/-- The tokens of a value nested at most `depth` levels deep. -/
def tokensAt (s : Store) : Nat → Value → List Token
  | 0, _ => []
  | depth + 1, v =>
    match v with
    | .array r => .ofSymbol .leftBracket ::
      (separated ((s.array r).toList.map (s.tokensAt depth)) ++ [.ofSymbol .rightBracket])
    | .tuple r => .ofSymbol .leftParen ::
      ((separated ((s.tuple r).toList.map (s.tokensAt depth)) ++
        if (s.tuple r).size = 1 then [.ofSymbol .comma] else []) ++ [.ofSymbol .rightParen])
    | .map r => .ofSymbol .leftBrace ::
      (separated ((s.map r).map fun e =>
        e.name.tokens ++ .ofSymbol .colon :: s.tokensAt depth e.value) ++
          [.ofSymbol .rightBrace])
    | v => v.tokens

theorem tokensAt_scalar (hv : v.IsScalar) : s.tokensAt (n + 1) v = v.tokens := by
  cases v with
  | bool | int | str => rfl
  | _ => exact hv.elim

theorem PlainAt.lexes (h : s.PlainAt n v) (hm : Closes more) :
    Lexes (s.tokensAt n v) (nested (s.printAt n) v).toList more := by
  induction n generalizing v more with
  | zero => exact h.elim
  | succ n ih =>
    have hlist : ∀ {vs : List Value}, (∀ u ∈ vs, s.PlainAt n u) → ∀ {more}, Closes more →
        Lexes (separated (vs.map (s.tokensAt n)))
          (Text.joined ", " (vs.map (nested (s.printAt n)))).toList more :=
      fun hvs _ hm => lexes_joined (fun u hu _ hm => ih (hvs u hu) hm) hm
    cases h with
    | none => exact isWritten_none.lexes hm
    | scalar hv =>
      rw [tokensAt_scalar hv]
      exact (isWritten_scalar hv).lexes hm
    | array _ hparts => exact lexes_bracketed rfl rfl (hlist hparts (.cons (by decide) _))
    | @tuple r _ hparts =>
      have htext : ∀ all tail : String, "(" ++ all ++ tail ++ ")" = "(" ++ (all ++ tail) ++ ")" :=
        fun _ _ => by simp only [String.append_assoc]
      simp only [tokensAt, nested, printAt, htext]
      refine @lexes_bracketed .leftParen .rightParen rfl rfl _ _ _ ?_
      rw [String.toList_append]
      split
      · exact (hlist hparts (.cons (by decide) _)).append (.mark (s := .comma) rfl _)
      · exact (hlist hparts (.cons (by decide) _)).append .nil
    | map _ _ hnames hparts =>
      refine lexes_bracketed rfl rfl (lexes_joined (fun e he more hm => ?_) (.cons (by decide) _))
      obtain ⟨k, rfl⟩ := Nat.exists_eq_add_one.2 (hparts e he).pos
      exact lexes_entry (fun _ => (isWritten_scalar (hnames e he)).lexes) (ih (hparts e he) hm)

theorem PlainAt.text_first (h : s.PlainAt n v) :
    ∃ c cs, (nested (s.printAt n) v).toList = c :: cs ∧ StartsValue c := by
  cases n with
  | zero => exact h.elim
  | succ n =>
    cases h with
    | none => exact isWritten_none.text_first
    | scalar hv => exact (isWritten_scalar hv).text_first
    | array =>
      simp only [nested, printAt, String.toList_append]
      exact ⟨'[', _, rfl, .inr (by decide)⟩
    | tuple =>
      simp only [nested, printAt, String.toList_append]
      exact ⟨'(', _, rfl, .inr (by decide)⟩
    | map =>
      simp only [nested, printAt, String.toList_append]
      exact ⟨'\x7b', _, rfl, .inr (by decide)⟩

end Store

end Spellbook
