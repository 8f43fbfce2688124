import Spellbook.Proofs.Program.Parser.Lines
import Spellbook.Proofs.Value.Meaning
import Spellbook.Proofs.Value.Written

/-! The parser makes an expression of the tokens of a plain value that stands for the value. -/
namespace Spellbook

theorem Expr.eq_literal_of_bare {e : Expr} {l : Literal} (h : e.bare = .literal .start l) :
    ∃ pos, e = .literal pos l := by
  cases e with
  | literal pos l' =>
    simp only [bare, literal.injEq, true_and] at h
    exact ⟨pos, h ▸ rfl⟩
  | _ => simp [bare] at h

section

open Spellbook.Parser

variable {P : Expr → Prop} {limit : Level} {t : Token} {ts : List Token} {fuel : Nat}

theorem reads_literal {l : Literal} (hl : (Expr.literal .start l).Legible)
    (hP : ∀ pos, P (.literal pos l)) (hfuel : 1 < fuel) (ht : t.kind.closes = true) :
    Reads (exprAt fuel limit) (l.token :: t :: ts) (t :: ts) P := by
  obtain ⟨fuel, rfl⟩ := Nat.exists_eq_add_one.2 (Nat.zero_lt_of_lt hfuel)
  refine exprAt_start (Nat.lt_of_succ_lt_succ hfuel) ht ((Reads.literal hl).imp fun e he => ?_)
  obtain ⟨pos, rfl⟩ := Expr.eq_literal_of_bare he
  exact hP pos

namespace Value.IsWritten

variable {v : Value} {tokens : List Token} {text : String}

theorem starts (h : v.IsWritten tokens text) : Starts tokens := by
  cases h with
  | literal hl =>
    obtain ⟨t, ts, hts, ht⟩ := Expr.tokens_first (.mk hl (List.forall_mem_nil _))
    rw [Expr.tokens] at hts
    exact ⟨t, ts, hts, Kind.starts_of_opens ht⟩
  | negative => exact ⟨_, _, rfl, rfl⟩

theorem takes {s : Store} {n : Nat} (h : v.IsWritten tokens text) (hv : v.IsScalar)
    (hfuel : tokens.length < fuel) : Takes (exprAt fuel) tokens (Expr.Gives s (n + 1) v) := by
  intro t ts ht
  cases h with
  | literal hl => exact reads_literal hl (fun _ => Expr.gives_literal hv) hfuel ht
  | @negative i hi hl =>
    obtain ⟨fuel, rfl⟩ := Nat.exists_eq_add_one.2 (Nat.zero_lt_of_lt hfuel)
    have hi' : i.toInt = -(-i).toInt := by
      rw [Number.toInt_neg hi]
      omega
    refine exprAt_start (by simp at hfuel; omega) ht (.look fun minus hminus => ?_)
    rw [Token.kind_of_bare hminus]
    refine Reads.advance.bind fun _ _ => ?_
    refine (reads_literal (P := fun e => ∃ pos, e = .literal pos (.int (-i))) hl
      (fun pos => ⟨pos, rfl⟩) (Nat.lt_of_succ_lt_succ hfuel) ht).bind ?_
    rintro _ ⟨pos, rfl⟩
    exact .pure (Expr.gives_negate hi hi')

end Value.IsWritten

end

namespace Store

open Spellbook.Parser

variable {s : Store} {v : Value} {n fuel : Nat}

theorem PlainAt.starts (h : s.PlainAt n v) : Starts (s.tokensAt n v) := by
  cases n with
  | zero => exact h.elim
  | succ n =>
    cases h with
    | none => exact (isWritten_none (s := s) (n := n)).starts
    | scalar hv =>
      rw [tokensAt_scalar hv]
      exact (isWritten_scalar (s := s) (n := n) hv).starts
    | array | tuple | map => exact ⟨_, _, rfl, rfl⟩

theorem takes_parts (fuel : Nat) {vs : List Value} (hvs : ∀ u ∈ vs, s.PlainAt n u)
    (ih : ∀ {u fuel}, s.PlainAt n u → (s.tokensAt n u).length < fuel →
      Takes (exprAt fuel) (s.tokensAt n u) (Expr.Gives s n u))
    (hfuel : (separated (vs.map (s.tokensAt n))).length < fuel) :
    vs.length < fuel ∧ (∀ u ∈ vs, Starts (s.tokensAt n u)) ∧
      ∀ u ∈ vs, Takes (exprAt fuel) (s.tokensAt n u) (Expr.Gives s n u) := by
  have hstarts : ∀ u ∈ vs, Starts (s.tokensAt n u) := fun u hu => (hvs u hu).starts
  obtain ⟨hcount, hlength⟩ := length_separated (List.forall_mem_map.2 hstarts)
  rw [List.length_map] at hcount
  refine ⟨by omega, hstarts, fun u hu => ih (hvs u hu) ?_⟩
  have hle := hlength _ (List.mem_map_of_mem hu)
  omega

theorem takes_entries (fuel : Nat) {t : Table} (hnames : ∀ e ∈ t, e.name.IsScalar)
    (hparts : ∀ e ∈ t, s.PlainAt n e.value)
    (ih : ∀ {u fuel}, s.PlainAt n u → (s.tokensAt n u).length < fuel →
      Takes (exprAt fuel) (s.tokensAt n u) (Expr.Gives s n u))
    (hfuel : (separated (t.map fun e =>
      e.name.tokens ++ .ofSymbol .colon :: s.tokensAt n e.value)).length < fuel) :
    t.length < fuel ∧ (∀ e ∈ t, Starts e.name.tokens) ∧
      (∀ e ∈ t, Takes (exprAt fuel) e.name.tokens (Expr.Gives s n e.name)) ∧
      ∀ e ∈ t, Takes (exprAt fuel) (s.tokensAt n e.value) (Expr.Gives s n e.value) := by
  have hstarts : ∀ e ∈ t, Starts e.name.tokens := fun e he =>
    (isWritten_scalar (s := s) (n := n) (hnames e he)).starts
  have hentries : ∀ e ∈ t, Starts (e.name.tokens ++ .ofSymbol .colon :: s.tokensAt n e.value) :=
    fun e he => (hstarts e he).append _
  obtain ⟨hcount, hlength⟩ := length_separated (List.forall_mem_map.2 hentries)
  rw [List.length_map] at hcount
  have hle : ∀ e ∈ t, e.name.tokens.length + (s.tokensAt n e.value).length < fuel := by
    intro e he
    have hle := hlength _ (List.mem_map_of_mem he)
    simp only [List.length_append, List.length_cons] at hle
    omega
  refine ⟨by omega, hstarts, fun e he => ?_, fun e he => ih (hparts e he) ?_⟩
  · obtain ⟨k, rfl⟩ := Nat.exists_eq_add_one.2 (hparts e he).pos
    have hlt := hle e he
    exact (isWritten_scalar (s := s) (n := k) (hnames e he)).takes (hnames e he) (by omega)
  · have hlt := hle e he
    omega

theorem PlainAt.takes (h : s.PlainAt n v) (hfuel : (s.tokensAt n v).length < fuel) :
    Takes (exprAt fuel) (s.tokensAt n v) (Expr.Gives s n v) := by
  induction n generalizing v fuel with
  | zero => exact h.elim
  | succ n ih =>
    obtain ⟨fuel, rfl⟩ := Nat.exists_eq_add_one.2 (Nat.zero_lt_of_lt hfuel)
    intro t ts ht
    cases h with
    | none => exact reads_literal ⟨trivial, rfl⟩ (fun _ => Expr.gives_none) hfuel ht
    | scalar hv =>
      rw [tokensAt_scalar hv] at hfuel ⊢
      exact (isWritten_scalar (s := s) (n := n) hv).takes hv hfuel t ts ht
    | array hr hparts =>
      simp only [tokensAt, List.length_cons, List.length_append, List.length_nil] at hfuel
      obtain ⟨hcount, hstarts, htakes⟩ := takes_parts fuel hparts ih (by omega)
      simp only [tokensAt, List.cons_append, List.append_assoc, List.nil_append]
      refine exprAt_start (by omega) ht ((Reads.separated_array hstarts htakes hcount).imp ?_)
      rintro _ ⟨pos, es, rfl, hes⟩
      exact Expr.gives_array hr hes
    | tuple hr hparts =>
      simp only [tokensAt, List.length_cons, List.length_append, List.length_nil] at hfuel
      obtain ⟨hcount, hstarts, htakes⟩ := takes_parts fuel hparts ih (by omega)
      simp only [tokensAt, List.cons_append, List.append_assoc, List.nil_append,
        ← Array.length_toList]
      refine exprAt_start (by omega) ht ((Reads.separated_tuple hstarts htakes hcount).imp ?_)
      rintro _ ⟨pos, es, rfl, hes⟩
      exact Expr.gives_tuple hr hes
    | map hr hproper hnames hparts =>
      simp only [tokensAt, List.length_cons, List.length_append, List.length_nil] at hfuel
      obtain ⟨hcount, hstarts, hkeys, hvalues⟩ :=
        takes_entries fuel hnames hparts ih (by omega)
      simp only [tokensAt, List.cons_append, List.append_assoc, List.nil_append]
      refine exprAt_start (by omega) ht
        ((Reads.separated_map hstarts hkeys hvalues hcount).imp ?_)
      rintro _ ⟨pos, es, rfl, hes⟩
      exact Expr.gives_map hr hproper hnames hes

end Store

end Spellbook
