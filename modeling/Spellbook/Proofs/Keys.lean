import Spellbook.Proofs.Number.Decimal
import Spellbook.Proofs.Number.Exact
import Spellbook.Proofs.Value.Tables

/-! Equality and the keys of maps. An integer and a double that are equal have the same key
exactly if no more than 53 bits of the integer count, any other equal keys of maps always. -/
namespace Spellbook

open Number

theorem Number.IsShort.of_le {n : Nat} (h : n ≤ 2 ^ 53) : IsShort n := by
  by_cases hn : n = 2 ^ 53
  · exact ⟨1, 53, by omega, by decide⟩
  · exact ⟨n, 0, by omega, by omega⟩

namespace Key

variable {x y : Float} {n : Int64}

theorem ofFloat_of_truncate? (hx : isIntegral x = true) (h : truncate? x = some n.toInt) :
    ofFloat x = .int n := by
  simp [ofFloat, hx, h, checked_toInt]

theorem truncate?_of_ofFloat (h : ofFloat x = .int n) : truncate? x = some n.toInt := by
  unfold ofFloat at h
  simp only at h
  split at h
  · rename_i m hexact
    cases h
    split at hexact
    · obtain ⟨i, hi, hm⟩ := Option.bind_eq_some_iff.1 hexact
      rw [hi, toInt_of_checked hm]
    · cases hexact
  · split at h
    · split at h <;> cases h
    · cases h

theorem truncate?_of_isZero (h : (Double.of x).IsZero) :
    isIntegral x = true ∧ truncate? x = some 0 := by
  unfold isIntegral truncate?
  cases hd : Double.of x with
  | nan => simp [hd, Double.IsZero] at h
  | infinite s => simp [hd, Double.IsZero] at h
  | finite s m e =>
    cases m with
    | zero => cases s <;> simp [Double.floorMagnitude, signed]
    | succ m => simp [hd, Double.IsZero] at h

theorem ofFloat_of_isZero (h : (Double.of x).IsZero) : ofFloat x = .int 0 :=
  ofFloat_of_truncate? (truncate?_of_isZero h).1 (truncate?_of_isZero h).2

/-- Equal doubles have the same key. -/
theorem ofFloat_of_beq (h : (x == y) = true) : ofFloat x = ofFloat y := by
  obtain rfl | ⟨hx, hy⟩ := eq_of_beq h
  · rfl
  · rw [ofFloat_of_isZero hx, ofFloat_of_isZero hy]

/-- The double of an integer has the key of the integer if that is short, and only then. -/
theorem ofFloat_toFloat_iff : ofFloat (Store.toFloat n) = .int n ↔ IsShort n.toInt.natAbs := by
  constructor
  · intro hkey
    exact short_of_truncate? (truncate?_of_ofFloat hkey)
  · intro hshort
    obtain ⟨hwhole, hvalue⟩ := toFloat_short hshort
    exact ofFloat_of_truncate? hwhole hvalue

end Key

theorem Table.find?_insert_self (t : Table) (e : Entry) : (t.insert e).find? e.key = some e := by
  induction t with
  | nil => simp [insert, find?]
  | cons x rest ih =>
    cases hc : e.key.compare x.key with
    | lt => simp [insert, find?, hc]
    | eq => simp [insert, find?, hc]
    | gt =>
      have hne : x.key ≠ e.key := by
        intro heq
        rw [heq, Key.compare_self] at hc
        cases hc
      simpa [insert, find?, hc, hne] using ih

namespace Value

/-- The values that stand for themselves as keys, doubles only if they are whole. -/
def IsPlainKey : Value → Prop
  | .bool _ | .int _ | .str _ => True
  | .float x => isIntegral x = true
  | _ => False

/-- Integers have to be short. -/
def IsShort : Value → Prop
  | .int n => Number.IsShort n.toInt.natAbs
  | _ => True

theorem exists_key {a : Value} (ha : a.IsPlainKey) : ∃ k, Key.ofValue a = .ok k := by
  cases a <;> first | exact ⟨_, rfl⟩ | exact ha.elim

/-- Keys of equal values agree but for integers that are too long for a double. -/
theorem ofValue_eq_iff (s : Store) {a b : Value} (ha : a.IsPlainKey) (hb : b.IsPlainKey)
    (h : s.equal a b = true) :
    Key.ofValue a = Key.ofValue b ↔ a = b ∨ a.IsShort ∧ b.IsShort := by
  have hat : s.equalAt (s.depthBound - 1 + 1) a b = true := h
  cases a <;> cases b <;> simp only [IsPlainKey] at ha hb <;>
    simp only [Store.equalAt, beq_iff_eq, reduceCtorEq] at hat
  case bool.bool x y => simp [hat]
  case str.str x y => simp [hat]
  case int.int m n => simp [hat]
  case float.float x y => simp [Key.ofValue, Key.ofFloat_of_beq hat, IsShort]
  case int.float n x =>
    simp [Key.ofValue, IsShort, ← Key.ofFloat_of_beq hat, ← Key.ofFloat_toFloat_iff, eq_comm]
  case float.int x n =>
    simp [Key.ofValue, IsShort, Key.ofFloat_of_beq hat, ← Key.ofFloat_toFloat_iff]

/-- Equal values have the same key, and what is stored under one is found under the other, but for
integers that are too long for a double. -/
theorem equal_keys (s : Store) {a b : Value} (ha : a.IsPlainKey) (hb : b.IsPlainKey)
    (h : s.equal a b = true) : ∃ k l, Key.ofValue a = .ok k ∧ Key.ofValue b = .ok l ∧
      (k = l ↔ a = b ∨ a.IsShort ∧ b.IsShort) ∧
      ∀ (t : Table) (v : Value),
        (t.insert ⟨k, a, v⟩).find? l = some ⟨k, a, v⟩ ↔ a = b ∨ a.IsShort ∧ b.IsShort := by
  obtain ⟨k, hk⟩ := exists_key ha
  obtain ⟨l, hl⟩ := exists_key hb
  have hiff := ofValue_eq_iff s ha hb h
  rw [hk, hl, Except.ok.injEq] at hiff
  refine ⟨k, l, hk, hl, hiff, fun t v => ?_⟩
  rw [← hiff]
  constructor
  · intro hfound
    simpa using List.find?_some hfound
  · rintro rfl
    exact Table.find?_insert_self t ⟨k, a, v⟩

theorem equal_keys_one : ∃ k l, Key.ofValue (.int 1) = .ok k ∧
    Key.ofValue (.float 1.0) = .ok l ∧ k = l := by
  have hwhole : (Value.float 1.0).IsPlainKey := by
    show isIntegral 1.0 = true
    decide +kernel
  have hint : (Value.int 1).IsPlainKey := trivial
  have hequal : Store.empty.equal (.int 1) (.float 1.0) = true := by decide +kernel
  obtain ⟨k, l, hk, hl, hiff, -⟩ := equal_keys Store.empty hint hwhole hequal
  exact ⟨k, l, hk, hl, hiff.2 (.inr ⟨.of_le (by decide), trivial⟩)⟩

/-- The integer next to `2 ^ 53` equals the double `2 ^ 53`, which has the key of another. -/
theorem not_equal_keys : ¬ ∀ (s : Store) (a b : Value), a.IsPlainKey → b.IsPlainKey →
    s.equal a b = true → Key.ofValue a = Key.ofValue b := by
  intro h
  have hwhole : (Value.float 9007199254740992.0).IsPlainKey := by
    show isIntegral 9007199254740992.0 = true
    decide +kernel
  have hequal : Store.empty.equal (.int 9007199254740993) (.float 9007199254740992.0) = true := by
    decide +kernel
  have hkey : Key.ofFloat 9007199254740992.0 = .int 9007199254740992 := by decide +kernel
  have hint : (Value.int 9007199254740993).IsPlainKey := trivial
  have hsame := h Store.empty _ _ hint hwhole hequal
  simp only [Key.ofValue, hkey, Except.ok.injEq, Key.int.injEq] at hsame
  exact absurd hsame (by decide)

end Value

end Spellbook
