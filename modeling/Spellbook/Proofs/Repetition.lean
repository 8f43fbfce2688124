import Spellbook.Proofs.Slices

/-! Repetition of arrays and strings. It makes the copies that are asked for, unless they come to
more than the limit. What counts are the elements of an array, but the bytes of a string. -/
namespace Spellbook

open Number

namespace Text

theorem toList_copies (n : ℕ) (s : String) :
    (copies n s).toList = (List.replicate n s.toList).flatten := by
  fun_induction copies n s with
  | case1 => rfl
  | case2 n _ half heven ih =>
    have hsplit : n = n / 2 + n / 2 := by omega
    conv_rhs => rw [hsplit, ← List.replicate_append_replicate, List.flatten_append]
    rw [String.toList_append, ih]
  | case3 n _ half hodd ih =>
    have hsplit : n = n / 2 + n / 2 + 1 := by omega
    conv_rhs => rw [hsplit, List.replicate_succ', List.flatten_concat,
      ← List.replicate_append_replicate, List.flatten_append]
    rw [String.toList_append, String.toList_append, ih]

theorem utf8ByteSize_eq (text : String) :
    text.utf8ByteSize = (text.toList.map Char.utf8Size).sum := by
  obtain ⟨cs, rfl⟩ : ∃ cs, text = String.ofList cs := ⟨text.toList, by simp⟩
  rw [String.toList_ofList]
  induction cs with
  | nil => rfl
  | cons c cs ih =>
    have hsplit : String.ofList (c :: cs) = String.singleton c ++ String.ofList cs := by
      rw [String.singleton_eq_ofList, ← String.ofList_append]
      rfl
    rw [hsplit, String.utf8ByteSize_append, String.utf8ByteSize_singleton, ih, List.map_cons,
      List.sum_cons]

theorem length_le_utf8ByteSize (text : String) : text.toList.length ≤ text.utf8ByteSize := by
  rw [utf8ByteSize_eq, ← List.length_map (f := Char.utf8Size)]
  refine List.length_le_sum_of_one_le _ fun k hk => ?_
  obtain ⟨c, -, rfl⟩ := List.mem_map.1 hk
  exact c.utf8Size_pos

theorem length_eq_utf8ByteSize {text : String} (h : ∀ c ∈ text.toList, c.toNat < 128) :
    text.toList.length = text.utf8ByteSize := by
  have hone : ∀ c ∈ text.toList, c.utf8Size = 1 := fun c hc =>
    Char.utf8Size_eq_one_iff.2 (UInt32.le_iff_toNat_le.2 (Nat.le_of_lt_succ (h c hc)))
  rw [utf8ByteSize_eq, List.map_congr_left hone, List.map_const', List.sum_replicate_nat,
    Nat.mul_one]

end Text

/-- No character of a string takes more than one byte. -/
def Value.IsNarrow : Value → Prop
  | .str text => ∀ c ∈ text.toList, c.toNat < 128
  | _ => True

namespace Sequence

variable {length : ℕ} {n : ℤ}

/-- Copies of nothing come to nothing, so none are made. -/
theorem exists_repetitions {α : Type} (xs : List α) (hempty : length = 0 → xs = [])
    (h : length * n.toNat ≤ maxLength) : ∃ count, repetitions length n = .ok count ∧
      (List.replicate count xs).flatten = (List.replicate n.toNat xs).flatten := by
  unfold repetitions
  by_cases h0 : length = 0
  · refine ⟨0, by simp [h0], ?_⟩
    simp [hempty h0]
  · refine ⟨n.toNat, ?_, rfl⟩
    simp only [h0, if_false, h, if_true]

theorem repetitions_error (h : maxLength < length * n.toNat) :
    repetitions length n = .error .tooLong := by
  have hlength : length ≠ 0 := by
    rintro rfl
    simp at h
  refine if_neg ?_
  rw [if_neg hlength]
  exact not_le.2 h

end Sequence

theorem toList_repeat {α : Type} (xs : Array α) (n : ℕ) :
    (Nat.repeat (· ++ xs) n #[]).toList = (List.replicate n xs.toList).flatten := by
  induction n with
  | zero => rfl
  | succ n ih =>
    rw [List.replicate_succ', List.flatten_concat, ← ih, ← Array.toList_append]
    rfl

namespace Store

/-- Arrays of the store and all strings, each with what counts toward the limit: the elements of an
array, but the bytes of a string. -/
inductive Repeatable (s : Store) : Value → ℕ → Prop where
  | array {r : Ref .array} (hr : r.index < s.arrays.size) :
    Repeatable s (.array r) (s.array r).size
  | str (text : String) : Repeatable s (.str text) text.utf8ByteSize

variable {s : Store} {v : Value} {extent : ℕ}

theorem Repeatable.length_le (hv : s.Repeatable v extent) : (s.content v).length ≤ extent := by
  cases hv with
  | array => exact Nat.le_refl _
  | str text =>
    rw [content_str, List.length_map]
    exact Text.length_le_utf8ByteSize text

theorem Repeatable.length_eq (hv : s.Repeatable v extent) (h : v.IsNarrow) :
    (s.content v).length = extent := by
  cases hv with
  | array => rfl
  | str text =>
    rw [content_str, List.length_map]
    exact Text.length_eq_utf8ByteSize h

theorem makes_mul (hv : s.Repeatable v extent) {n : Int64}
    (h : extent * n.toInt.toNat ≤ Sequence.maxLength) :
    s.Makes v (Operator.mul.apply v (.int n))
      (List.replicate n.toInt.toNat (s.content v)).flatten := by
  cases hv with
  | @array r hr =>
    obtain ⟨count, hcount, hcopies⟩ :=
      Sequence.exists_repetitions (s.array r).toList (by simp) h
    have hrun : Operator.repeatArray (s.array r) n =
        Op.newArray (Nat.repeat (· ++ s.array r) count #[]) := by
      rw [Operator.repeatArray, hcount]
      rfl
    have hmakes := makes_array (s := s) r ((toList_repeat _ _).trans hcopies)
    rw [← hrun] at hmakes
    exact hmakes
  | str text =>
    obtain ⟨count, hcount, hcopies⟩ :=
      Sequence.exists_repetitions text.toList (by simp) h
    have hrun : Operator.repeatString text n = pure (.str (Text.copies count text)) := by
      rw [Operator.repeatString, hcount]
      rfl
    have hcontent : (Text.copies count text).toList.map (fun c => Value.str (String.singleton c)) =
        (List.replicate n.toInt.toNat (s.content (.str text))).flatten := by
      rw [Text.toList_copies, hcopies, List.map_flatten, List.map_replicate, content_str]
    have hmakes := makes_str (s := s) text hcontent
    rw [String.ofList_toList, ← hrun] at hmakes
    exact hmakes

theorem mul_refused (hv : s.Repeatable v extent) {n : Int64}
    (h : Sequence.maxLength < extent * n.toInt.toNat) :
    Operator.mul.apply v (.int n) s = .error .tooLong s := by
  cases hv with
  | @array r hr =>
    change Operator.repeatArray (s.array r) n s = _
    rw [Operator.repeatArray, Sequence.repetitions_error h]
    rfl
  | str text =>
    change Operator.repeatString text n s = _
    rw [Operator.repeatString, Sequence.repetitions_error h]
    rfl

/-- Repetition makes the copies that are asked for exactly if what counts comes to no more than the
limit, and else is refused, as it is when their number does not even fit in 64 bits. No more
elements than the limit are ever made, and those of arrays and of strings without characters of
several bytes count once each. -/
theorem repetition_bounded (s : Store) {v : Value} {extent : ℕ} (hv : s.Repeatable v extent)
    (n : Int64) :
    (extent * n.toInt.toNat ≤ 2 ^ 26 →
      s.Makes v (Operator.mul.apply v (.int n))
        (List.replicate n.toInt.toNat (s.content v)).flatten ∧
      (List.replicate n.toInt.toNat (s.content v)).flatten.length =
        (s.content v).length * n.toInt.toNat) ∧
    (2 ^ 26 < extent * n.toInt.toNat → Operator.mul.apply v (.int n) s = .error .tooLong s) ∧
    (fits (extent * max n.toInt 0) = false → Operator.mul.apply v (.int n) s = .error .tooLong s) ∧
    (s.content v).length ≤ extent ∧ (v.IsNarrow → (s.content v).length = extent) := by
  refine ⟨fun h => ⟨makes_mul hv h, ?_⟩, mul_refused hv, fun h => mul_refused hv ?_, hv.length_le,
    hv.length_eq⟩
  · rw [List.length_flatten, List.map_replicate, List.sum_replicate_nat, Nat.mul_comm]
  · refine lt_of_not_ge fun hle => ?_
    have hlimit : Sequence.maxLength = 2 ^ 26 := rfl
    rw [← Int.toNat_eq_max, ← Nat.cast_mul] at h
    exact Bool.eq_false_iff.1 h (fits_iff.2 (by omega))

theorem repetition_bounded_accented :
    Store.empty.Makes (.str "é") (Operator.mul.apply (.str "é") (.int 2)) [.str "é", .str "é"] ∧
      Operator.mul.apply (.str "é") (.int 33554433) .empty = .error .tooLong .empty ∧
      Operator.mul.apply (.str "é") (.int 9223372036854775807) .empty = .error .tooLong .empty ∧
      (Store.empty.content (.str "ab")).length = "ab".utf8ByteSize := by
  have hwide : Store.empty.Repeatable (.str "é") 2 := .str "é"
  obtain ⟨hmakes, -⟩ := repetition_bounded .empty hwide 2
  obtain ⟨-, hlimit, -⟩ := repetition_bounded .empty hwide 33554433
  obtain ⟨-, -, hoverflow, -⟩ := repetition_bounded .empty hwide 9223372036854775807
  obtain ⟨-, -, -, -, hnarrow⟩ := repetition_bounded .empty (.str "ab") 2
  have hplain : (Value.str "ab").IsNarrow := by simp [Value.IsNarrow]
  exact ⟨(hmakes (by decide)).1, hlimit (by decide), hoverflow (by decide), hnarrow hplain⟩

/-- 33554433 times `é` has fewer characters than the limit, and is refused for its bytes. -/
theorem not_repetition_by_elements : ¬ ∀ (s : Store) (v : Value) (extent : ℕ),
    s.Repeatable v extent → ∀ n : Int64, (s.content v).length * n.toInt.toNat ≤ 2 ^ 26 →
      ∃ v' s', Operator.mul.apply v (.int n) s = .ok v' s' := by
  intro h
  obtain ⟨v', s', hrun⟩ := h .empty (.str "é") 2 (.str "é") 33554433 (by decide)
  have hrefused : Operator.mul.apply (.str "é") (.int 33554433) .empty = .error .tooLong .empty :=
    mul_refused (.str "é") (by decide)
  rw [hrefused] at hrun
  cases hrun

end Store

end Spellbook
