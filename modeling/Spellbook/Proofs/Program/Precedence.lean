import Spellbook.Program.Parser.Expr

/-! Chains of operators without parentheses. Precedence leaves one tree for each chain. -/
namespace Spellbook

namespace BinaryOp

/-- How tightly an operator binds. -/
def level : BinaryOp → Parser.Level
  | .connective .or => .or
  | .connective .and => .and
  | .operator .equal | .operator .notEqual => .equality
  | .operator .less | .operator .greater | .operator .lessEqual | .operator .greaterEqual
  | .operator .isIn | .operator .notIn | .operator .bitAnd | .operator .bitOr | .operator .bitXor
  | .operator .shiftLeft | .operator .shiftRight => .comparison
  | .operator .add | .operator .sub => .sum
  | .operator .mul | .operator .div | .operator .mod => .product
  | .operator .pow => .exponent

def rank (op : BinaryOp) : Nat := op.level.rank

/-- The level that the right operand has to exceed. -/
def rightLimit (op : BinaryOp) : Parser.Level :=
  if op = .operator .pow then .product else op.level

/-- An operation by `inner` can stand left of `op` without parentheses. -/
def FitsLeft (op inner : BinaryOp) : Prop :=
  if op = .operator .pow then op.rank < inner.rank else op.rank ≤ inner.rank

/-- An operation by `inner` can stand right of `op` without parentheses. -/
def FitsRight (op inner : BinaryOp) : Prop :=
  if op = .operator .pow then op.rank ≤ inner.rank else op.rank < inner.rank

variable {op inner : BinaryOp}

theorem FitsLeft.le (h : op.FitsLeft inner) : op.rank ≤ inner.rank := by
  unfold FitsLeft at h
  split at h
  · exact Nat.le_of_lt h
  · exact h

theorem FitsRight.le (h : op.FitsRight inner) : op.rank ≤ inner.rank := by
  unfold FitsRight at h
  split at h
  · exact h
  · exact Nat.le_of_lt h

theorem FitsLeft.trans {o : BinaryOp} (h : op.FitsLeft inner) (ho : inner.rank ≤ o.rank) :
    op.FitsLeft o := by
  by_cases hop : op = .operator .pow
  · simp only [FitsLeft, hop, if_true] at h ⊢
    omega
  · simp only [FitsLeft, hop, if_false] at h ⊢
    omega

theorem FitsRight.trans {o : BinaryOp} (h : op.FitsRight inner) (ho : inner.rank ≤ o.rank) :
    op.FitsRight o := by
  by_cases hop : op = .operator .pow
  · simp only [FitsRight, hop, if_true] at h ⊢
    omega
  · simp only [FitsRight, hop, if_false] at h ⊢
    omega

theorem rank_eq_pow : op.rank = rank (.operator .pow) ↔ op = .operator .pow := by
  cases op with
  | connective c => cases c <;> decide
  | operator o => cases o <;> decide

theorem rank_le_pow (op : BinaryOp) : op.rank ≤ rank (.operator .pow) := by
  cases op with
  | connective c => cases c <;> decide
  | operator o => cases o <;> decide

theorem rank_pos (op : BinaryOp) : 0 < op.rank := by
  cases op with
  | connective c => cases c <;> decide
  | operator o => cases o <;> decide

theorem fitsRight_of_rightLimit (h : op.rightLimit.rank < inner.rank) : op.FitsRight inner := by
  by_cases hop : op = .operator .pow
  · subst hop
    simp only [FitsRight, if_true]
    exact h
  · simpa [FitsRight, rightLimit, hop, rank] using h

theorem fitsLeft_of_rightLimit {next : BinaryOp} (h : next.rank ≤ op.rightLimit.rank) :
    next.FitsLeft op := by
  by_cases hop : op = .operator .pow
  · subst hop
    have hlt : next.rank < rank (.operator .pow) := Nat.lt_succ_of_le h
    unfold FitsLeft
    split <;> omega
  · have hle : next.rank ≤ op.rank := by simpa [rightLimit, hop, rank] using h
    have hnext : next ≠ .operator .pow := by
      rintro rfl
      exact hop (rank_eq_pow.1 (Nat.le_antisymm (rank_le_pow op) hle))
    simpa [FitsLeft, hnext] using hle

theorem FitsLeft.not_fitsRight (h : op.FitsLeft inner) : ¬ inner.FitsRight op := by
  intro h'
  by_cases hinner : inner = .operator .pow
  · have hle := h'.le
    have hop : op = .operator .pow := by
      have hmax := rank_le_pow op
      rw [hinner] at hle
      exact rank_eq_pow.1 (by omega)
    simp [FitsLeft, hop, hinner] at h
  · have hle := h.le
    simp only [FitsRight, hinner, if_false] at h'
    omega

end BinaryOp

/-- A name or an integer, as it is written and with its value. -/
inductive Atom where
  | name (word : String)
  | int (digits : String) (value : Int64)

inductive OpTree where
  | leaf (a : Atom)
  | node (op : BinaryOp) (left right : OpTree)

namespace OpTree

def first : OpTree → Atom
  | leaf a => a
  | node _ left _ => left.first

def rest : OpTree → List (BinaryOp × Atom)
  | leaf _ => []
  | node op left right => left.rest ++ (op, right.first) :: right.rest

def root? : OpTree → Option BinaryOp
  | leaf _ => none
  | node op _ _ => some op

/-- The tree needs no parentheses. -/
def Grouped : OpTree → Prop
  | leaf _ => True
  | node op left right => left.Grouped ∧ right.Grouped ∧
    (∀ inner ∈ left.root?, op.FitsLeft inner) ∧ ∀ inner ∈ right.root?, op.FitsRight inner

theorem root?_of_mem_rest {t : OpTree} {p : BinaryOp × Atom} (h : p ∈ t.rest) :
    ∃ op, t.root? = some op := by
  cases t with
  | leaf a => simp [rest] at h
  | node op left right => exact ⟨op, rfl⟩

/-- The operator at the root binds loosest. -/
theorem Grouped.root_le {t : OpTree} (h : t.Grouped) {op : BinaryOp} (hop : t.root? = some op)
    {p : BinaryOp × Atom} (hp : p ∈ t.rest) : op.rank ≤ p.1.rank := by
  induction t generalizing op with
  | leaf a => simp [rest] at hp
  | node o left right ihleft ihright =>
    obtain ⟨hleft, hright, hfitsLeft, hfitsRight⟩ := h
    obtain rfl : o = op := by simpa [root?] using hop
    simp only [rest, List.mem_append, List.mem_cons] at hp
    obtain hp | rfl | hp := hp
    · obtain ⟨inner, hinner⟩ := root?_of_mem_rest hp
      exact Nat.le_trans (hfitsLeft inner hinner).le (ihleft hleft hinner hp)
    · exact Nat.le_refl _
    · obtain ⟨inner, hinner⟩ := root?_of_mem_rest hp
      exact Nat.le_trans (hfitsRight inner hinner).le (ihright hright hinner hp)

/-- The root of a grouped tree is the only place where its operators can be parted. -/
theorem Grouped.not_crossed {op op' : BinaryOp} {left right : OpTree} (hleft : left.Grouped)
    (hright : right.Grouped) (hfitsLeft : ∀ inner ∈ left.root?, op'.FitsLeft inner)
    (hfitsRight : ∀ inner ∈ right.root?, op.FitsRight inner) {a a' : Atom}
    (hop : (op, a) ∈ left.rest) : (op', a') ∉ right.rest := by
  intro hop'
  obtain ⟨inner, hinner⟩ := root?_of_mem_rest hop
  obtain ⟨inner', hinner'⟩ := root?_of_mem_rest hop'
  have hl : op'.FitsLeft op := (hfitsLeft inner hinner).trans (hleft.root_le hinner hop)
  have hr : op.FitsRight op' := (hfitsRight inner' hinner').trans (hright.root_le hinner' hop')
  exact hl.not_fitsRight hr

/-- No operator of a grouped tree can be the root of another one further to the left. -/
theorem Grouped.not_shifted {op op' : BinaryOp} {left right left' right' : OpTree}
    (hleft' : left'.Grouped) (hright : right.Grouped)
    (hfitsLeft' : ∀ inner ∈ left'.root?, op'.FitsLeft inner)
    (hfitsRight : ∀ inner ∈ right.root?, op.FitsRight inner) {p : BinaryOp × Atom}
    {between : List (BinaryOp × Atom)} (hl : left'.rest = left.rest ++ p :: between)
    (hr : (op, right.first) :: right.rest = p :: between ++ (op', right'.first) :: right'.rest) :
    False := by
  rw [List.cons_append, List.cons.injEq] at hr
  obtain ⟨rfl, hr⟩ := hr
  have hmem : (op, right.first) ∈ left'.rest := by simp [hl]
  have hmem' : (op', right'.first) ∈ right.rest := by simp [hr]
  exact not_crossed hleft' hright hfitsLeft' hfitsRight hmem hmem'

/-- A chain has at most one grouped tree. -/
theorem Grouped.unique {t t' : OpTree} (h : t.Grouped) (h' : t'.Grouped)
    (hfirst : t.first = t'.first) (hrest : t.rest = t'.rest) : t = t' := by
  induction t generalizing t' with
  | leaf a =>
    cases t' with
    | leaf a' => rw [show a = a' from hfirst]
    | node op' left' right' => simp [rest] at hrest
  | node op left right ihleft ihright =>
    cases t' with
    | leaf a' => simp [rest] at hrest
    | node op' left' right' =>
      obtain ⟨hleft, hright, hfitsLeft, hfitsRight⟩ := h
      obtain ⟨hleft', hright', hfitsLeft', hfitsRight'⟩ := h'
      simp only [rest] at hrest
      have hparts : left.rest = left'.rest ∧
          (op, right.first) :: right.rest = (op', right'.first) :: right'.rest := by
        -- The roots part the chain at one place or at two, and at two one tree is not grouped.
        obtain ⟨between, hl, hr⟩ | ⟨between, hl, hr⟩ := List.append_eq_append_iff.1 hrest
        · cases between with
          | nil => exact ⟨by simpa using hl.symm, hr⟩
          | cons p between =>
            exact (not_shifted hleft' hright hfitsLeft' hfitsRight hl hr).elim
        · cases between with
          | nil => exact ⟨by simpa using hl, hr.symm⟩
          | cons p between =>
            exact (not_shifted hleft hright' hfitsLeft hfitsRight' hl hr).elim
      obtain ⟨hpair, hmore⟩ := List.cons.inj hparts.2
      obtain ⟨rfl, hnext⟩ := Prod.mk.inj hpair
      rw [ihleft hleft hleft' hfirst hparts.1, ihright hright hright' hnext hmore]

end OpTree

end Spellbook
