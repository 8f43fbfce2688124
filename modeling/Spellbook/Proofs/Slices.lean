import Spellbook.Proofs.Arithmetic
import Spellbook.Proofs.Value.Equality
import Spellbook.Proofs.Value.Meaning

/-! Slices of arrays, tuples and strings. A slice always succeeds and holds the elements between its
bounds. Two slices that meet at an integer make up the whole again; a bound that is left out does
not divide. -/
namespace Spellbook

open Number

variable {α : Type}

/-- The elements from position `lo` on and before position `hi`, in order. -/
def between (xs : List α) (lo hi : ℤ) : List α :=
  (xs.zipIdx.filter fun p => lo ≤ p.2 ∧ p.2 < hi).map (·.1)

theorem filter_zipIdx (xs : List α) (lo hi k : ℕ) :
    ((xs.zipIdx k).filter fun p => (lo : ℤ) ≤ p.2 ∧ (p.2 : ℤ) < hi).map (·.1) =
      (xs.drop (lo - k)).take (hi - max lo k) := by
  induction xs generalizing k with
  | nil => simp
  | cons x xs ih =>
    have hnext := ih (k + 1)
    rw [List.zipIdx_cons, List.filter_cons]
    obtain hbefore | hlo := lt_or_ge k lo
    · rw [show lo - k = lo - (k + 1) + 1 by omega, List.drop_succ_cons,
        show max lo k = max lo (k + 1) by omega, ← hnext, if_neg (by simp; omega)]
    · rw [show lo - (k + 1) = lo - k by omega, show max lo (k + 1) = k + 1 by omega] at hnext
      rw [show lo - k = 0 by omega, List.drop_zero] at hnext ⊢
      rw [show max lo k = k by omega]
      obtain hafter | hhi := le_or_gt hi k
      · rw [show hi - k = 0 by omega, if_neg (by simp; omega), hnext,
          show hi - (k + 1) = 0 by omega, List.take_zero, List.take_zero]
      · rw [show hi - k = hi - (k + 1) + 1 by omega, if_pos (by simp; omega), List.map_cons, hnext,
          List.take_succ_cons]

theorem between_eq (xs : List α) (lo hi : ℕ) : between xs lo hi = (xs.drop lo).take (hi - lo) := by
  have h := filter_zipIdx xs lo hi 0
  simpa [between] using h

theorem between_max (xs : List α) (lo hi : ℤ) : between xs lo hi = between xs lo (max lo hi) := by
  unfold between
  congr 2
  funext p
  rw [decide_eq_decide]
  omega

namespace Sequence

/-- The place of a slice bound: negative ones count from the end, and none is outside. -/
def place (length : ℕ) (b : ℤ) : ℤ := if b < 0 then max 0 (b + length) else min b length

/-- Where a slice starts, which is at the beginning without a bound. -/
def first (length : ℕ) (start : Option Int64) : ℤ := start.elim 0 fun b => place length b.toInt

/-- Where a slice stops, which is at the end without a bound. -/
def past (length : ℕ) (stop : Option Int64) : ℤ := stop.elim length fun b => place length b.toInt

theorem bound_eq_place (length : ℕ) (b : ℤ) : (bound length b : ℤ) = place length b := by
  unfold bound place
  split <;> omega

theorem bound_le (length : ℕ) (b : ℤ) : bound length b ≤ length := by
  unfold bound
  split <;> omega

/-- A slice starts at the place of its first bound, and stops at that of the other one or where it
starts, inside the sequence. -/
theorem sliceRange_eq (length : ℕ) (start stop : Option Int64) {lo hi : ℕ}
    (h : sliceRange length (start.map Int64.toInt) (stop.map Int64.toInt) = (lo, hi)) :
    (lo : ℤ) = first length start ∧ (hi : ℤ) = max (first length start) (past length stop) ∧
      lo ≤ hi ∧ hi ≤ length := by
  have hfirst : ((((start.map Int64.toInt).map (bound length)).getD 0 : ℕ) : ℤ) =
      first length start := by
    cases start <;> simp [first, bound_eq_place]
  have hpast : ((((stop.map Int64.toInt).map (bound length)).getD length : ℕ) : ℤ) =
      past length stop := by
    cases stop <;> simp [past, bound_eq_place]
  have hstart : ((start.map Int64.toInt).map (bound length)).getD 0 ≤ length := by
    cases start <;> simp [bound_le]
  have hstop : ((stop.map Int64.toInt).map (bound length)).getD length ≤ length := by
    cases stop <;> simp [bound_le]
  rw [← hfirst, ← hpast]
  simp only [sliceRange] at h
  split at h
  all_goals
    cases h
    omega

end Sequence

def cut (xs : List α) (start stop : Option Int64) : List α :=
  between xs (Sequence.first xs.length start) (Sequence.past xs.length stop)

theorem cut_eq (xs : List α) (start stop : Option Int64) {lo hi : ℕ}
    (h : Sequence.sliceRange xs.length (start.map Int64.toInt) (stop.map Int64.toInt) = (lo, hi)) :
    cut xs start stop = (xs.drop lo).take (hi - lo) := by
  obtain ⟨hlo, hhi, -, -⟩ := Sequence.sliceRange_eq _ _ _ h
  rw [cut, between_max, ← hhi, ← hlo, between_eq]

theorem cut_append (xs : List α) (i : Int64) :
    cut xs none (some i) ++ cut xs (some i) none = xs := by
  let n := xs.length
  have hplace : ∃ k : ℕ, (k : ℤ) = Sequence.place n i.toInt ∧ k ≤ n :=
    ⟨_, Sequence.bound_eq_place n i.toInt, Sequence.bound_le n i.toInt⟩
  obtain ⟨k, hk, hle⟩ := hplace
  have hfront : cut xs none (some i) = xs.take k := by
    rw [cut, show Sequence.past xs.length (some i) = (k : ℤ) from hk.symm]
    exact between_eq xs 0 k
  have hback : cut xs (some i) none = xs.drop k := by
    rw [cut, show Sequence.first xs.length (some i) = (k : ℤ) from hk.symm]
    exact (between_eq xs k n).trans (List.take_of_length_le (List.length_drop ..).le)
  rw [hfront, hback, List.take_append_drop]

theorem cut_none (xs : List α) : cut xs none none = xs :=
  (between_eq xs 0 xs.length).trans List.take_length

theorem map_cut {β : Type} (f : α → β) (xs : List α) (start stop : Option Int64) :
    (cut xs start stop).map f = cut (xs.map f) start stop := by
  obtain ⟨lo, hi, h⟩ : ∃ lo hi, Sequence.sliceRange xs.length (start.map Int64.toInt)
      (stop.map Int64.toInt) = (lo, hi) := ⟨_, _, rfl⟩
  have hmap : Sequence.sliceRange (xs.map f).length (start.map Int64.toInt)
      (stop.map Int64.toInt) = (lo, hi) := by rwa [List.length_map]
  rw [cut_eq xs start stop h, cut_eq (xs.map f) start stop hmap, List.map_take, List.map_drop]

/-- What can stand for a bound: nothing, `None` or an integer. -/
inductive IsBound : Option Value → Option Int64 → Prop where
  | absent : IsBound none none
  | none : IsBound (some .none) none
  | int (n : Int64) : IsBound (some (.int n)) (some n)

theorem sliceBound_eq {b : Option Value} {i : Option Int64} (h : IsBound b i) :
    Op.sliceBound b = pure (i.map Int64.toInt) := by
  cases h <;> rfl

namespace Store

/-- Arrays and tuples of the store, and all strings. -/
inductive Sliceable (s : Store) : Value → Prop where
  | array {r : Ref .array} (hr : r.index < s.arrays.size) : Sliceable s (.array r)
  | tuple {r : Ref .tuple} (hr : r.index < s.tuples.size) : Sliceable s (.tuple r)
  | str (text : String) : Sliceable s (.str text)

/-- The elements of an array or a tuple, or the characters of a string as strings. -/
def content (s : Store) (v : Value) : List Value := ((s.elements? v).getD #[]).toList

/-- The operation makes a value of the type of `v` with these elements, and leaves all that is there
as it is. -/
def Makes (s : Store) (v : Value) (act : Op Value) (xs : List Value) : Prop :=
  ∃ v' s', act s = .ok v' s' ∧ s.Extends s' ∧ s'.Sliceable v' ∧ v'.typeName = v.typeName ∧
    s'.content v' = xs

variable {s s' : Store} {v : Value} {xs : List Value}

theorem content_array (r : Ref .array) : s.content (.array r) = (s.array r).toList := rfl

theorem content_tuple (r : Ref .tuple) : s.content (.tuple r) = (s.tuple r).toList := rfl

theorem content_str (text : String) :
    s.content (.str text) = text.toList.map fun c => .str (String.singleton c) := rfl

theorem Sliceable.extend (h : s.Sliceable v) (hs : s.Extends s') :
    s'.Sliceable v ∧ s'.content v = s.content v := by
  cases h with
  | array hr =>
    obtain ⟨hin, hget⟩ := Extends.getD hs.arrays hr #[]
    exact ⟨.array hin, congrArg Array.toList hget⟩
  | tuple hr =>
    obtain ⟨hin, hget⟩ := Extends.getD hs.tuples hr #[]
    exact ⟨.tuple hin, congrArg Array.toList hget⟩
  | str text => exact ⟨.str text, rfl⟩

theorem makes_array (r : Ref .array) {ys : Array Value} (h : ys.toList = xs) :
    s.Makes (.array r) (Op.newArray ys) xs :=
  ⟨_, _, rfl, .newArray s ys, .array (by simp), rfl,
    (congrArg Array.toList (array_newArray s ys)).trans h⟩

theorem makes_tuple (r : Ref .tuple) {ys : Array Value} (h : ys.toList = xs) :
    s.Makes (.tuple r) (Op.newTuple ys) xs :=
  ⟨_, _, rfl, .newTuple s ys, .tuple (by simp), rfl,
    (congrArg Array.toList (tuple_newTuple s ys)).trans h⟩

theorem makes_str (text : String) {cs : List Char}
    (h : cs.map (fun c => .str (String.singleton c)) = xs) :
    s.Makes (.str text) (pure (.str (String.ofList cs))) xs :=
  ⟨_, s, rfl, .refl s, .str _, rfl, by rw [content_str, String.toList_ofList, h]⟩

theorem makes_slice (hv : s.Sliceable v) {start stop : Option Value} {i j : Option Int64}
    (hstart : IsBound start i) (hstop : IsBound stop j) :
    s.Makes v (Op.slice v start stop) (cut (s.content v) i j) := by
  unfold Op.slice
  rw [sliceBound_eq hstart, sliceBound_eq hstop, pure_bind, pure_bind]
  cases hv with
  | @array r hr =>
    refine makes_array r ?_
    rw [Array.toList_extract, cut_eq (s.content (.array r)) i j rfl]
    rfl
  | @tuple r hr =>
    refine makes_tuple r ?_
    rw [Array.toList_extract, cut_eq (s.content (.tuple r)) i j rfl]
    rfl
  | str text =>
    refine makes_str text ?_
    rw [content_str, ← map_cut, cut_eq text.toList i j rfl]

theorem makes_add {u : Value} (hv : s.Sliceable v) (hu : s.Sliceable u)
    (htype : u.typeName = v.typeName) :
    s.Makes v (Operator.add.apply v u) (s.content v ++ s.content u) := by
  cases hv with
  | @array r hr =>
    cases hu with
    | array hr' => exact makes_array r (by simp [content_array])
    | _ => simp [Value.typeName] at htype
  | @tuple r hr =>
    cases hu with
    | tuple hr' => exact makes_tuple r (by simp [content_tuple])
    | _ => simp [Value.typeName] at htype
  | str text =>
    cases hu with
    | str text' => exact ⟨_, s, rfl, .refl s, .str _, rfl, by simp [content_str]⟩
    | _ => simp [Value.typeName] at htype

end Store

/-- A value up to a bound and from the bound on, put together. -/
def Op.rejoined (v : Value) (b : Option Value) : Op Value := do
  let front ← slice v none b
  let back ← slice v b none
  Operator.add.apply front back

namespace Store

variable {s : Store} {v : Value}

theorem makes_rejoined (hv : s.Sliceable v) {b : Option Value} {i : Option Int64}
    (hb : IsBound b i) :
    s.Makes v (Op.rejoined v b) (cut (s.content v) none i ++ cut (s.content v) i none) := by
  obtain ⟨front, s₁, hfront, h₁, hs₁, ht₁, hp₁⟩ := makes_slice hv .absent hb
  obtain ⟨hv₁, hkept⟩ := hv.extend h₁
  obtain ⟨back, s₂, hback, h₂, hs₂, ht₂, hp₂⟩ := makes_slice hv₁ hb .absent
  obtain ⟨hfront₂, hkept₂⟩ := hs₁.extend h₂
  obtain ⟨whole, s₃, hadd, h₃, hs₃, ht₃, hp₃⟩ := makes_add hfront₂ hs₂ (ht₂.trans ht₁.symm)
  refine ⟨whole, s₃, ?_, (h₁.trans h₂).trans h₃, hs₃, ht₃.trans ht₁, ?_⟩
  · simp only [Op.rejoined, Bind.bind, EStateM.bind, hfront, hback, hadd]
  · rw [hp₃, hkept₂, hp₁, hp₂, hkept]

theorem str_inj_of_content {text text' : String}
    (h : s.content (.str text) = s.content (.str text')) : text = text' := by
  have hinj : Function.Injective fun c => Value.str (String.singleton c) := by
    intro c c' hc
    have hlist := congrArg String.toList (Value.str.inj hc)
    rw [String.toList_singleton, String.toList_singleton] at hlist
    exact List.head_eq_of_cons_eq hlist
  exact String.toList_inj.1 (hinj.list_map h)

theorem equals_of_content {u : Value} (hu : s.Sliceable u) (hv : s.Sliceable v)
    (htype : u.typeName = v.typeName) (hcontent : s.content u = s.content v)
    (hself : v.isSequence = true → ∀ w ∈ s.content v, s.equalAt (s.depthBound - 1) w w = true) :
    s.Equals u v := by
  have hdepth : s.depthBound = s.depthBound - 1 + 1 := rfl
  have hequal : s.equal u v = true := by
    rw [equal, hdepth]
    cases hu with
    | @array r hr =>
      cases hv with
      | @array r' hr' =>
        refine equalAt_array_iff.2 (.inr ?_)
        rw [← content_array, ← content_array, hcontent]
        exact List.forall₂_same.2 (hself rfl)
      | _ => simp [Value.typeName] at htype
    | @tuple r hr =>
      cases hv with
      | @tuple r' hr' =>
        refine equalAt_tuple_iff.2 ?_
        rw [← content_tuple, ← content_tuple, hcontent]
        exact List.forall₂_same.2 (hself rfl)
      | _ => simp [Value.typeName] at htype
    | str text =>
      cases hv with
      | str text' => simp [equalAt, str_inj_of_content hcontent]
      | _ => simp [Value.typeName] at htype
  rw [Equals, applyEquality_of_comparable (comparable_of_typeName_eq htype), hequal]

/-- Slices always succeed and have the elements between their bounds; the bounds never leave
64 bits, and the places that they name never the sequence. Two slices that meet at an integer have
together the elements of the whole, and what they make equals it unless an element does not equal
itself. Without an integer to meet at they are the whole each. -/
theorem slices_partition (s : Store) {v : Value} (hv : s.Sliceable v) :
    (∀ start stop i j, IsBound start i → IsBound stop j →
      s.Makes v (Op.slice v start stop) (cut (s.content v) i j)) ∧
    (∀ (length : ℕ) (i j : Option Int64) (lo hi : ℕ),
      Sequence.sliceRange length (i.map Int64.toInt) (j.map Int64.toInt) = (lo, hi) →
      (lo : ℤ) = Sequence.first length i ∧
        (hi : ℤ) = max (Sequence.first length i) (Sequence.past length j) ∧
          lo ≤ hi ∧ hi ≤ length) ∧
    (∀ (length : ℕ) (b : Int64), fits length = true → b.toInt < 0 →
      fits (b.toInt + length) = true) ∧
    (∀ b, IsBound b none → s.Makes v (Op.rejoined v b) (s.content v ++ s.content v)) ∧
    ∀ i : Int64, ∃ v' s', Op.rejoined v (some (.int i)) s = .ok v' s' ∧
      v'.typeName = v.typeName ∧ s'.content v' = s.content v ∧
      ((v.isSequence = true → ∀ w ∈ s.content v, s'.equalAt (s'.depthBound - 1) w w = true) →
        s'.Equals v' v) := by
  refine ⟨fun _ _ _ _ hstart hstop => makes_slice hv hstart hstop,
    fun length i j lo hi h => Sequence.sliceRange_eq length i j h,
    fun length b hlength hb => ?_, fun b hb => ?_, fun i => ?_⟩
  · have hrange := fits_iff.1 hlength
    have hlow := b.le_toInt
    exact fits_iff.2 (by omega)
  · have hwhole := makes_rejoined hv hb
    rwa [cut_none] at hwhole
  · obtain ⟨v', s', hrun, hext, hv', htype, hcontent⟩ := makes_rejoined hv (.int i)
    obtain ⟨hvs, hkept⟩ := hv.extend hext
    rw [cut_append] at hcontent
    refine ⟨v', s', hrun, htype, hcontent, fun hself => ?_⟩
    rw [← hkept] at hcontent hself
    exact equals_of_content hv' hvs htype hcontent hself

def counting : Store := { Store.empty with arrays := #[#[.int 1, .int 2, .int 3]] }

theorem slices_partition_counting :
    counting.Makes (.array ⟨0⟩)
        (Op.slice (.array ⟨0⟩) (some (.int (-2))) (some (.int 9223372036854775807)))
        [.int 2, .int 3] ∧
      fits (Int64.minValue.toInt + (3 : ℕ)) = true ∧
      ∃ v' s', Op.rejoined (.array ⟨0⟩) (some (.int 2)) counting = .ok v' s' ∧
        s'.Equals v' (.array ⟨0⟩) := by
  have hv : counting.Sliceable (.array ⟨0⟩) := .array (by decide)
  obtain ⟨hslice, -, hfits, -, hmeet⟩ := slices_partition counting hv
  obtain ⟨v', s', hrun, -, -, hequals⟩ := hmeet 2
  refine ⟨hslice _ _ _ _ (.int _) (.int _), hfits 3 Int64.minValue rfl (by decide), v', s', hrun,
    hequals fun _ => ?_⟩
  cases hrun
  decide

/-- Without an integer to meet at, two slices hold everything twice. -/
theorem not_slices_rejoin : ¬ ∀ (s : Store) (v : Value), s.Sliceable v → ∀ b i, IsBound b i →
    s.Makes v (Op.rejoined v b) (s.content v) := by
  intro h
  obtain ⟨v', s', hrun, -, -, -, hcontent⟩ :=
    h .empty (.str "ab") (.str "ab") (some .none) none .none
  cases hrun
  have hlength := congrArg List.length hcontent
  exact absurd hlength (by decide)

end Store

end Spellbook
