import Spellbook.Number.Reader

/-! Reading a decimal number undoes writing it. -/
namespace Spellbook.Number

theorem splitSign_digits {ds : List Char} (h : ds.all isDigit = true) :
    splitSign ds = (false, ds) := by
  unfold splitSign
  split
  · simp only [List.all_cons, Bool.and_eq_true] at h
    exact absurd h.1 (by decide)
  · simp only [List.all_cons, Bool.and_eq_true] at h
    exact absurd h.1 (by decide)
  · rfl

theorem readNat?_digits {ds : List Char} (h : ds.all isDigit = true) (hne : ds ≠ []) :
    readNat? ds = some (digitsValue ds) := by
  have hempty : ds.isEmpty = false := List.isEmpty_eq_false_iff.2 hne
  simp [readNat?, h, hempty]

theorem readInt?_digits {ds : List Char} (h : ds.all isDigit = true) (hne : ds ≠ []) :
    readInt? ds = checked (digitsValue ds) := by
  have hread : ∀ check : Int → Option Int64,
      (readNat? ds).bind (fun n => check (signed false n)) = check (digitsValue ds) := by
    intro check
    rw [readNat?_digits h hne]
    rfl
  unfold readInt?
  rw [splitSign_digits h]
  exact hread checked

theorem digitsValue_toDigits (n : Nat) : digitsValue (Nat.toDigits 10 n) = n :=
  Nat.ofDigitChars_ten_toDigits

theorem all_isDigit_toDigits (n : Nat) : (Nat.toDigits 10 n).all isDigit = true := by
  refine List.all_eq_true.2 fun c hc => ?_
  have hd := Nat.isDigit_of_mem_toDigits (by decide) (by decide) hc
  simp only [Char.isDigit, Bool.and_eq_true, decide_eq_true_eq] at hd
  simp only [isDigit, Bool.and_eq_true, decide_eq_true_eq, Char.le_def]
  exact hd

theorem toString_toList {n : Int64} (h : 0 ≤ n.toInt) :
    (toString n).toList = Nat.toDigits 10 n.toInt.toNat := by
  obtain ⟨k, hk⟩ := Int.eq_ofNat_of_zero_le h
  have htext : toString n = toString k := by
    show toString n.toInt = _
    rw [hk]
    rfl
  rw [htext, hk]
  exact Nat.toList_repr

theorem checked_toInt (n : Int64) : checked n.toInt = some n := by
  have hfits : fits n.toInt = true := by
    have hlow := n.le_toInt
    have hhigh := n.toInt_lt
    rw [fits, Bool.and_eq_true, decide_eq_true_iff, decide_eq_true_iff]
    unfold wordLimit
    omega
  rw [checked, if_pos hfits, Int64.ofInt_toInt]

theorem readInt?_toString {n : Int64} (h : 0 ≤ n.toInt) :
    readInt? (toString n).toList = some n := by
  have hn : ((n.toInt.toNat : Nat) : Int) = n.toInt := Int.toNat_of_nonneg h
  rw [toString_toList h, readInt?_digits (all_isDigit_toDigits _) Nat.toDigits_ne_nil,
    digitsValue_toDigits, hn, checked_toInt]

end Spellbook.Number
