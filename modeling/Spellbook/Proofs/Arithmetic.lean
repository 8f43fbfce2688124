import Mathlib.Data.Rat.Floor
import Spellbook.Builtin

/-! Arithmetic on integers. What comes out is the exact result, and a result that does not fit is
refused. A remainder by -1 and powers of 0, 1 and -1 are also refused at the far end of the
integers, where they would fit. -/
namespace Spellbook

open Number

theorem Number.fits_iff {x : ℤ} : fits x = true ↔ -2 ^ 63 ≤ x ∧ x < 2 ^ 63 := by
  simp only [fits, Bool.and_eq_true, decide_eq_true_eq]
  rfl

/-- The integer next to `q` on the side of zero. -/
def towardZero (q : ℚ) : ℤ := if 0 ≤ q then ⌊q⌋ else ⌈q⌉

theorem towardZero_neg (q : ℚ) : towardZero (-q) = -towardZero q := by
  unfold towardZero
  obtain hq | rfl | hq := lt_trichotomy 0 q
  · rw [if_neg (by linarith), if_pos hq.le, Int.ceil_neg]
  · simp
  · rw [if_pos (by linarith), if_neg (by linarith), Int.floor_neg]

theorem towardZero_div (l r : ℤ) : towardZero (l / r) = l.tdiv r := by
  have hnat : ∀ m n : ℕ, towardZero ((m : ℚ) / n) = (m : ℤ).tdiv n := by
    intro m n
    rw [towardZero, if_pos (by positivity), Rat.floor_natCast_div_natCast,
      Int.tdiv_eq_ediv_of_nonneg (Int.natCast_nonneg m)]
  obtain ⟨m, rfl | rfl⟩ := l.eq_nat_or_neg <;> obtain ⟨n, rfl | rfl⟩ := r.eq_nat_or_neg <;>
    simp [neg_div, div_neg, towardZero_neg, hnat]

namespace Operator

def arithmetic : List Operator := [.add, .sub, .mul, .div, .mod, .pow]

/-- What a calculation makes of two integers by the rules of arithmetic, if that is an integer.
Quotients are cut off, and a remainder is what is left. -/
def exactly? (op : Operator) (l r : ℤ) : Option ℤ :=
  match op with
  | .add => some (l + r)
  | .sub => some (l - r)
  | .mul => some (l * r)
  | .div => if r = 0 then none else some (towardZero (l / r))
  | .mod => if r = 0 then none else some (l - towardZero (l / r) * r)
  | .pow => if 0 ≤ r then some (l ^ r.toNat) else none
  | _ => none

/-- The operands for which an operator is refused without a look at the result. -/
def IsOvercautious (op : Operator) (l r : Int64) : Prop :=
  op = .mod ∧ l = Int64.minValue ∧ r = -1 ∨
    op = .pow ∧ l.toInt.natAbs ≤ 1 ∧ 2 ^ 32 ≤ r.toInt

theorem exactly?_div {l r : ℤ} (hr : r ≠ 0) : Operator.div.exactly? l r = some (l.tdiv r) := by
  rw [← towardZero_div]
  exact if_neg hr

theorem exactly?_mod {l r : ℤ} (hr : r ≠ 0) : Operator.mod.exactly? l r = some (l.tmod r) := by
  rw [Int.tmod_def, mul_comm, ← towardZero_div]
  exact if_neg hr

theorem exactly?_pow {l r : ℤ} (hr : 0 ≤ r) : Operator.pow.exactly? l r = some (l ^ r.toNat) :=
  if_pos hr

variable {op : Operator} {l r : Int64} {x : ℤ}

theorem exact_ok {v : Value} (h : exact x = .ok v) : ∃ n : Int64, n.toInt = x ∧ v = .int n := by
  unfold exact at h
  split at h
  · cases h
    exact ⟨_, toInt_of_checked ‹_›, rfl⟩
  · cases h

theorem exact_eq_error {e : Fault} : exact x = .error e ↔ fits x = false ∧ e = .overflow := by
  cases hx : fits x <;> simp [exact, checked, hx, eq_comm]

theorem exact_fits (hx : fits x = true) : ∃ n : Int64, n.toInt = x ∧ exact x = .ok (.int n) := by
  cases h : exact x with
  | ok v =>
    obtain ⟨n, hn, rfl⟩ := exact_ok h
    exact ⟨n, hn, rfl⟩
  | error e => exact absurd (exact_eq_error.1 h).1 (by simp [hx])

theorem fits_pow {b : ℤ} {e : ℕ} (hb : 2 ≤ b.natAbs) (he : 64 ≤ e) : fits (b ^ e) = false := by
  have hlarge : 2 ^ 64 ≤ (b ^ e).natAbs := by
    rw [Int.natAbs_pow]
    calc 2 ^ 64 ≤ 2 ^ e := Nat.pow_le_pow_right (by decide) he
      _ ≤ b.natAbs ^ e := Nat.pow_le_pow_left hb e
  refine Bool.eq_false_iff.2 fun hfits => ?_
  have hrange := fits_iff.1 hfits
  omega

theorem pow_small {b : ℤ} (hb : b.natAbs ≤ 1) (e : ℕ) :
    (if e = 0 then 1 else if e % 2 = 0 then b * b else b) = b ^ e := by
  have hcases : b = 0 ∨ b = 1 ∨ b = -1 := by omega
  by_cases he : e = 0
  · simp [he]
  rw [if_neg he]
  obtain rfl | rfl | rfl := hcases
  · simp [he]
  · simp
  · by_cases heven : e % 2 = 0
    · rw [if_pos heven, Even.neg_one_pow (Nat.even_iff.2 heven)]
      rfl
    · rw [if_neg heven, Odd.neg_one_pow (Nat.odd_iff.2 (by omega))]

theorem intPower_exact {b : ℤ} {e : ℕ} (h : b.natAbs ≤ 1 → e < 2 ^ 32) :
    intPower b e = exact (b ^ e) := by
  have hrefused : 2 ≤ b.natAbs → 64 ≤ e → exact (b ^ e) = .error .overflow :=
    fun hb he => exact_eq_error.2 ⟨fits_pow hb he, rfl⟩
  unfold intPower
  split
  next hmax =>
    have hmax : 2 ^ 32 - 1 < e := hmax
    exact (hrefused (by omega) (by omega)).symm
  next =>
    split
    next hb => rw [pow_small hb]
    next hb =>
      split
      next he => exact (hrefused (by omega) he).symm
      next => rfl

theorem onInts_exact (hx : op.exactly? l.toInt r.toInt = some x) (hover : ¬ op.IsOvercautious l r) :
    op.onInts l r = exact x := by
  have hzero : r = 0 ↔ r.toInt = 0 := Int64.toInt_inj.symm
  cases op with
  | add | sub | mul =>
    obtain rfl := Option.some.inj hx
    rfl
  | div =>
    have hr := (Option.ite_none_left_eq_some.1 hx).1
    obtain rfl := Option.some.inj ((exactly?_div hr).symm.trans hx)
    simp only [onInts, hzero, hr, if_false]
  | mod =>
    have hr := (Option.ite_none_left_eq_some.1 hx).1
    obtain rfl := Option.some.inj ((exactly?_mod hr).symm.trans hx)
    have hquotient : ¬(r = -1 ∧ l = Int64.minValue) := fun h => hover (.inl ⟨rfl, h.2, h.1⟩)
    simp only [onInts, hzero, hr, hquotient, if_false]
  | pow =>
    have hr := (Option.ite_none_right_eq_some.1 hx).1
    obtain rfl := Option.some.inj ((exactly?_pow hr).symm.trans hx)
    have hbelow : l.toInt.natAbs ≤ 1 → r.toInt.toNat < 2 ^ 32 := fun hl =>
      (Int.toNat_lt hr).2 (not_le.1 fun h => hover (.inr ⟨rfl, hl, h⟩))
    simp only [onInts, hr, if_true, intPower_exact hbelow]
  | _ => cases hx

theorem onInts_overcautious (h : op.IsOvercautious l r) : op.onInts l r = .error .overflow := by
  obtain ⟨rfl, rfl, rfl⟩ | ⟨rfl, hl, hr⟩ := h
  · rfl
  · have hmax : maxExponent < r.toInt.toNat := by
      have hlimit : maxExponent = 2 ^ 32 - 1 := rfl
      omega
    simp only [onInts, intPower, if_pos (show 0 ≤ r.toInt by omega), if_pos hmax]

/-- Where the rules of arithmetic give no integer, none comes out. -/
theorem onInts_inexact (hx : op.exactly? l.toInt r.toInt = none) (hop : op ∈ arithmetic)
    (n : Int64) : op.onInts l r ≠ .ok (.int n) := by
  have hzero : r = 0 ↔ r.toInt = 0 := Int64.toInt_inj.symm
  simp only [arithmetic, List.mem_cons, List.not_mem_nil, or_false] at hop
  obtain rfl | rfl | rfl | rfl | rfl | rfl := hop
  case inr.inr.inr.inl | inr.inr.inr.inr.inl =>
    have hr : r.toInt = 0 := by simpa [exactly?] using hx
    simp [onInts, hzero, hr]
  case inr.inr.inr.inr.inr =>
    have hr : ¬ 0 ≤ r.toInt := by simpa [exactly?] using hx
    simp only [onInts, hr, if_false]
    nofun
  all_goals cases hx

/-- The exact result comes out whenever it fits, but for the operands that are refused unseen. -/
theorem onInts_fits (hx : op.exactly? l.toInt r.toInt = some x) (hfits : fits x = true)
    (hover : ¬ op.IsOvercautious l r) :
    ∃ n : Int64, n.toInt = x ∧ op.onInts l r = .ok (.int n) := by
  rw [onInts_exact hx hover]
  exact exact_fits hfits

theorem onInts_overflow (hx : op.exactly? l.toInt r.toInt = some x) :
    op.onInts l r = .error .overflow ↔ fits x = false ∨ op.IsOvercautious l r := by
  by_cases hover : op.IsOvercautious l r
  · simp [onInts_overcautious hover, hover]
  · simp [onInts_exact hx hover, exact_eq_error, hover]

theorem exactly_of_onInts {v : Value} (hx : op.exactly? l.toInt r.toInt = some x)
    (h : op.onInts l r = .ok v) : ∃ n : Int64, n.toInt = x ∧ v = .int n := by
  by_cases hover : op.IsOvercautious l r
  · rw [onInts_overcautious hover] at h
    cases h
  · rw [onInts_exact hx hover] at h
    exact exact_ok h

theorem exactly?_of_onInts {n : Int64} (hop : op ∈ arithmetic) (h : op.onInts l r = .ok (.int n)) :
    op.exactly? l.toInt r.toInt = some n.toInt := by
  cases hx : op.exactly? l.toInt r.toInt with
  | none => exact absurd h (onInts_inexact hx hop n)
  | some x =>
    obtain ⟨m, rfl, hm⟩ := exactly_of_onInts hx h
    cases hm
    rfl

theorem apply_ints (hop : op ∈ arithmetic) :
    op.apply (.int l) (.int r) = .ofExcept (op.onInts l r) := by
  simp only [arithmetic, List.mem_cons, List.not_mem_nil, or_false] at hop
  obtain rfl | rfl | rfl | rfl | rfl | rfl := hop <;> rfl

end Operator

section Outcomes

variable {α : Type} {r : Except Fault α} {s s' : Store}

theorem ofExcept_eq_ok {a : α} : Op.ofExcept r s = .ok a s' ↔ r = .ok a ∧ s' = s := by
  cases r with
  | ok b =>
    change EStateM.Result.ok b s = .ok a s' ↔ _
    simp [eq_comm]
  | error e =>
    change EStateM.Result.error e s = .ok a s' ↔ _
    simp

theorem ofExcept_eq_error {e : Fault} : Op.ofExcept r s = .error e s' ↔ r = .error e ∧ s' = s := by
  cases r with
  | ok b =>
    change EStateM.Result.ok b s = .error e s' ↔ _
    simp
  | error e' =>
    change EStateM.Result.error e' s = .error e s' ↔ _
    simp [eq_comm]

theorem toInt_of_ofExcept {x : ℤ} {n : Int64}
    (h : Op.ofExcept (Operator.exact x) s = .ok (.int n) s') : n.toInt = x := by
  obtain ⟨m, hm, hv⟩ := Operator.exact_ok (ofExcept_eq_ok.1 h).1
  cases hv
  exact hm

end Outcomes

theorem negate_int (n : Int64) :
    UnaryOp.negate.apply (.int n) = .ofExcept (Operator.exact (-n.toInt)) := rfl

theorem abs_int (n : Int64) :
    Builtin.abs.apply [.int n] = .ofExcept (Operator.exact |n.toInt|) := by
  rw [← Int.natCast_natAbs]
  rfl

/-- A quotient and a remainder make up the dividend, and the remainder is less than the divisor and
has the sign of the dividend if it is not zero. -/
theorem division_law {l r : Int64} {v w : Value} {s sq sm : Store}
    (hq : Operator.div.apply (.int l) (.int r) s = .ok v sq)
    (hm : Operator.mod.apply (.int l) (.int r) s = .ok w sm) :
    ∃ q m : Int64, v = .int q ∧ w = .int m ∧ l.toInt = q.toInt * r.toInt + m.toInt ∧
      |m.toInt| < |r.toInt| ∧ (m.toInt = 0 ∨ m.toInt.sign = l.toInt.sign) := by
  have hzero : r = 0 ↔ r.toInt = 0 := Int64.toInt_inj.symm
  rw [Operator.apply_ints (by decide)] at hq hm
  replace hq := (ofExcept_eq_ok.1 hq).1
  replace hm := (ofExcept_eq_ok.1 hm).1
  have hr : r.toInt ≠ 0 := by
    intro hr
    rw [Operator.onInts, if_pos (hzero.2 hr)] at hq
    cases hq
  obtain ⟨q, hqx, rfl⟩ := Operator.exactly_of_onInts (Operator.exactly?_div hr) hq
  obtain ⟨m, hmx, rfl⟩ := Operator.exactly_of_onInts (Operator.exactly?_mod hr) hm
  refine ⟨q, m, rfl, rfl, by rw [hqx, hmx, Int.tdiv_mul_add_tmod], ?_, ?_⟩
  · rw [hmx, Int.abs_eq_natAbs, Int.abs_eq_natAbs, Int.natAbs_tmod]
    exact_mod_cast Nat.mod_lt _ (Int.natAbs_pos.2 hr)
  · rw [hmx, Int.sign_tmod]
    by_cases hdvd : r.toInt ∣ l.toInt
    · exact .inl (Int.tmod_eq_zero_of_dvd hdvd)
    · exact .inr (if_neg hdvd)

/-- Integers that come out of the calculations, of a minus sign and of `abs` are the exact results,
and what does not fit is refused. Nothing is divided by zero. -/
theorem integer_results_exact (l r : Int64) (s : Store) :
    (∀ op ∈ Operator.arithmetic, ∀ n s', op.apply (.int l) (.int r) s = .ok (.int n) s' →
      op.exactly? l.toInt r.toInt = some n.toInt) ∧
    (∀ n s', UnaryOp.negate.apply (.int l) s = .ok (.int n) s' → n.toInt = -l.toInt) ∧
    (∀ n s', Builtin.abs.apply [.int l] s = .ok (.int n) s' → n.toInt = |l.toInt|) ∧
    (∀ op ∈ Operator.arithmetic, ∀ x, op.exactly? l.toInt r.toInt = some x → fits x = false →
      op.apply (.int l) (.int r) s = .error .overflow s) ∧
    (fits (-l.toInt) = false → UnaryOp.negate.apply (.int l) s = .error .overflow s) ∧
    (fits |l.toInt| = false → Builtin.abs.apply [.int l] s = .error .overflow s) ∧
    (Operator.div.apply (.int l) (.int 0) s = .error .divisionByZero s ∧
      Operator.mod.apply (.int l) (.int 0) s = .error .moduloByZero s) ∧
    ∀ v w sq sm, Operator.div.apply (.int l) (.int r) s = .ok v sq →
      Operator.mod.apply (.int l) (.int r) s = .ok w sm →
      ∃ q m : Int64, v = .int q ∧ w = .int m ∧ l.toInt = q.toInt * r.toInt + m.toInt ∧
        |m.toInt| < |r.toInt| ∧ (m.toInt = 0 ∨ m.toInt.sign = l.toInt.sign) := by
  rw [negate_int, abs_int]
  refine ⟨fun op hop n s' h => ?_, fun n s' h => toInt_of_ofExcept h,
    fun n s' h => toInt_of_ofExcept h,
    fun op hop x hx hfits => ?_, fun hfits => ?_, fun hfits => ?_, ⟨rfl, rfl⟩,
    fun v w sq sm hq hm => division_law hq hm⟩
  · rw [Operator.apply_ints hop] at h
    exact Operator.exactly?_of_onInts hop (ofExcept_eq_ok.1 h).1
  · rw [Operator.apply_ints hop]
    exact ofExcept_eq_error.2 ⟨(Operator.onInts_overflow hx).2 (.inl hfits), rfl⟩
  · exact ofExcept_eq_error.2 ⟨Operator.exact_eq_error.2 ⟨hfits, rfl⟩, rfl⟩
  · exact ofExcept_eq_error.2 ⟨Operator.exact_eq_error.2 ⟨hfits, rfl⟩, rfl⟩

/-- At a remainder of a negative number, and at the least integer, which has no opposite. -/
theorem integer_results_exact_negative :
    Operator.div.apply (.int (-7)) (.int 2) .empty = .ok (.int (-3)) .empty ∧
      Operator.div.exactly? (-7) 2 = some (-3) ∧
      |(-1 : ℤ)| < |(2 : ℤ)| ∧
      UnaryOp.negate.apply (.int Int64.minValue) .empty = .error .overflow .empty ∧
      Builtin.abs.apply [.int Int64.minValue] .empty = .error .overflow .empty := by
  obtain ⟨hexact, -, -, -, -, -, -, hlaw⟩ := integer_results_exact (-7) 2 .empty
  obtain ⟨-, -, -, -, hnegate, habs, -, -⟩ := integer_results_exact Int64.minValue 2 .empty
  obtain ⟨q, m, -, hm, -, hlt, -⟩ := hlaw (.int (-3)) (.int (-1)) .empty .empty rfl rfl
  cases hm
  exact ⟨rfl, hexact .div (by decide) (-3) .empty rfl, hlt, hnegate rfl, habs rfl⟩

/-- Overflow is reported exactly if the exact result does not fit, or for the operands that are
refused unseen; else the exact result comes out. -/
theorem overflow_reported {op : Operator} (hop : op ∈ Operator.arithmetic) {l r : Int64} {x : ℤ}
    (hx : op.exactly? l.toInt r.toInt = some x) (s : Store) :
    (fits x = true → ¬ op.IsOvercautious l r →
      ∃ n : Int64, n.toInt = x ∧ op.apply (.int l) (.int r) s = .ok (.int n) s) ∧
    (op.apply (.int l) (.int r) s = .error .overflow s ↔
      fits x = false ∨ op.IsOvercautious l r) := by
  rw [Operator.apply_ints hop, ofExcept_eq_error, and_iff_left rfl]
  refine ⟨fun hfits hover => ?_, Operator.onInts_overflow hx⟩
  obtain ⟨n, hn, h⟩ := Operator.onInts_fits hx hfits hover
  exact ⟨n, hn, ofExcept_eq_ok.2 ⟨h, rfl⟩⟩

theorem overflow_reported_limit :
    (∃ n : Int64, n.toInt = 9223372036854775807 ∧ Operator.add.apply (.int 9223372036854775806)
        (.int 1) .empty = .ok (.int n) .empty) ∧
      Operator.add.apply (.int 9223372036854775807) (.int 1) .empty = .error .overflow .empty :=
  ⟨(overflow_reported (by decide) rfl .empty).1 rfl (by simp [Operator.IsOvercautious]),
    (overflow_reported (by decide) rfl .empty).2.2 (.inl rfl)⟩

/-- A calculation succeeds whenever its exact result fits. -/
def Operator.NeverRefusesFits (op : Operator) : Prop :=
  ∀ (l r : Int64) (x : ℤ) (s : Store), op.exactly? l.toInt r.toInt = some x → fits x = true →
    ∃ n : Int64, n.toInt = x ∧ op.apply (.int l) (.int r) s = .ok (.int n) s

/-- A power of 1 is refused although it is 1, and a remainder by -1 although it is 0. -/
theorem not_overflow_genuine :
    ¬ Operator.pow.NeverRefusesFits ∧ ¬ Operator.mod.NeverRefusesFits := by
  constructor
  · intro h
    have hone : Operator.pow.exactly? (1 : Int64).toInt (4294967296 : Int64).toInt = some 1 := by
      rw [Operator.exactly?_pow (by decide)]
      exact congrArg some (one_pow _)
    obtain ⟨n, -, hn⟩ := h 1 4294967296 1 .empty hone rfl
    cases hn
  · intro h
    obtain ⟨n, -, hn⟩ := h Int64.minValue (-1) 0 .empty (Operator.exactly?_mod (by decide)) rfl
    cases hn

end Spellbook
