import Mathlib.Algebra.Order.Floor.Div
import Mathlib.Data.Set.Card
import Spellbook.Proofs.Slices

/-! Ranges. They hold the integers from the start on, in steps, that lie before the stop, all of
them and in order; if there are too many, the refusal says how many. -/
namespace Spellbook

open Number

namespace Sequence

/-- Whether `x` lies strictly before `stop` in the direction of the steps. -/
def Before (step x stop : ℤ) : Prop := if 0 < step then x < stop else stop < x

/-- The integers from `start` on in steps, before `stop`. -/
def progression (start stop step : ℤ) : Set ℤ :=
  {x | ∃ i : ℕ, x = start + i * step ∧ Before step x stop}

variable {start stop step : ℤ}

theorem rangeCount_of_before (h : Before step start stop) :
    rangeCount start stop step =
      ((stop - start).natAbs + step.natAbs - 1) / step.natAbs := by
  refine if_neg ?_
  rw [ne_eq, eq_iff_iff]
  unfold Before at h
  split at h <;> omega

theorem rangeCount_of_not_before (h : ¬ Before step start stop) :
    rangeCount start stop step = 0 := by
  refine if_pos ?_
  rw [ne_eq, eq_iff_iff]
  unfold Before at h
  split at h <;> omega

theorem steps_up (h : 0 < step) (i : ℕ) : 0 ≤ i * step := by positivity

theorem steps_down (h : ¬ 0 < step) (i : ℕ) : i * step ≤ 0 :=
  mul_nonpos_of_nonneg_of_nonpos (by omega) (not_lt.1 h)

theorem Before.of_steps {i : ℕ} (h : Before step (start + i * step) stop) :
    Before step start stop := by
  unfold Before at h ⊢
  split at h
  next hpos =>
    have hup := steps_up hpos i
    rw [if_pos hpos]
    omega
  next hneg =>
    have hdown := steps_down hneg i
    rw [if_neg hneg]
    omega

theorem lt_ceiling {d : ℕ} (hd : 0 < d) (i n : ℕ) : i < (n + d - 1) / d ↔ d * i < n := by
  rw [← Nat.ceilDiv_eq_add_pred_div, ← not_le, ceilDiv_le_iff_le_mul hd, not_le]

theorem lt_rangeCount_iff (hstep : step ≠ 0) (i : ℕ) :
    i < rangeCount start stop step ↔ Before step (start + i * step) stop := by
  by_cases h : Before step start stop
  · have habs : step.natAbs * i = (i * step).natAbs := by
      rw [Int.natAbs_mul, Int.natAbs_natCast, mul_comm]
    rw [rangeCount_of_before h, lt_ceiling (Int.natAbs_pos.2 hstep), habs]
    unfold Before at h ⊢
    split at h
    next hpos =>
      have hup := steps_up hpos i
      rw [if_pos hpos]
      omega
    next hneg =>
      have hdown := steps_down hneg i
      rw [if_neg hneg]
      omega
  · rw [rangeCount_of_not_before h]
    exact iff_of_false (Nat.not_lt_zero i) fun hsteps => h hsteps.of_steps

theorem progression_eq (hstep : step ≠ 0) : progression start stop step =
    (fun i : ℕ => start + i * step) '' Finset.range (rangeCount start stop step) := by
  ext x
  simp only [progression, Set.mem_ofPred_eq, Set.mem_image, Finset.mem_coe, Finset.mem_range,
    lt_rangeCount_iff hstep]
  constructor
  · rintro ⟨i, rfl, hbefore⟩
    exact ⟨i, hbefore, rfl⟩
  · rintro ⟨i, hbefore, rfl⟩
    exact ⟨i, rfl, hbefore⟩

theorem ncard_progression (hstep : step ≠ 0) :
    (progression start stop step).ncard = rangeCount start stop step := by
  have hinj : Function.Injective fun i : ℕ => start + i * step := by
    intro i j hij
    simpa [hstep] using hij
  rw [progression_eq hstep, Set.ncard_image_of_injective _ hinj, Set.ncard_coe_finset,
    Finset.card_range]

theorem finite_progression (hstep : step ≠ 0) : (progression start stop step).Finite := by
  rw [progression_eq hstep]
  exact (Finset.finite_toSet _).image _

theorem between_of_mem_progression {x : ℤ} (h : x ∈ progression start stop step) :
    min start stop ≤ x ∧ x ≤ max start stop := by
  obtain ⟨i, rfl, hbefore⟩ := h
  unfold Before at hbefore
  split at hbefore
  next hpos =>
    have hup := steps_up hpos i
    omega
  next hneg =>
    have hdown := steps_down hneg i
    omega

theorem range_ok (hstep : step ≠ 0) (h : rangeCount start stop step ≤ maxLength) :
    range start stop step =
      .ok ((List.range (rangeCount start stop step)).map fun i : ℕ => start + i * step) := by
  rw [range, if_neg hstep]
  exact if_neg (not_lt.2 h)

theorem range_error (hstep : step ≠ 0) (h : maxLength < rangeCount start stop step) :
    range start stop step = .error (.rangeTooLarge (rangeCount start stop step)) := by
  rw [range, if_neg hstep]
  exact if_pos h

end Sequence

/-- The integers from `start` on in steps, before `stop`: all of them and no others, in order. -/
structure IsRange (start stop step : Int64) (xs : List Int64) : Prop where
  length : xs.length = (Sequence.progression start.toInt stop.toInt step.toInt).ncard
  element (i : ℕ) (h : i < xs.length) : xs[i].toInt = start.toInt + i * step.toInt
  /-- Calculated in 64 bits the elements are the same. -/
  word (i : ℕ) (h : i < xs.length) : xs[i] = start + Int64.ofNat i * step
  mem (x : ℤ) : x ∈ Sequence.progression start.toInt stop.toInt step.toInt ↔
    ∃ n ∈ xs, n.toInt = x
  between (n : Int64) (h : n ∈ xs) : min start.toInt stop.toInt ≤ n.toInt ∧
    n.toInt ≤ max start.toInt stop.toInt

section

variable {start stop step : Int64}

def rangeWords (start step : Int64) (count : ℕ) : List Int64 :=
  (List.range count).map fun i => start + Int64.ofNat i * step

theorem ofInt_element (start step : Int64) (i : ℕ) :
    Int64.ofInt (start.toInt + i * step.toInt) = start + Int64.ofNat i * step := by
  rw [Int64.ofInt_add, Int64.ofInt_mul, Int64.ofInt_toInt, Int64.ofInt_toInt]
  rfl

theorem toInt_element (hstep : step.toInt ≠ 0) {i : ℕ}
    (hi : i < Sequence.rangeCount start.toInt stop.toInt step.toInt) :
    (start + Int64.ofNat i * step).toInt = start.toInt + i * step.toInt := by
  have hmem : start.toInt + i * step.toInt ∈
      Sequence.progression start.toInt stop.toInt step.toInt :=
    ⟨i, rfl, (Sequence.lt_rangeCount_iff hstep i).1 hi⟩
  have hbetween := Sequence.between_of_mem_progression hmem
  have hstart := start.le_toInt
  have hstart' := start.toInt_lt
  have hstop := stop.le_toInt
  have hstop' := stop.toInt_lt
  rw [← ofInt_element]
  exact Int64.toInt_ofInt_of_le (by omega) (by omega)

theorem isRange_rangeWords (hstep : step.toInt ≠ 0) : IsRange start stop step
    (rangeWords start step (Sequence.rangeCount start.toInt stop.toInt step.toInt)) := by
  have hmem : ∀ x : ℤ, x ∈ Sequence.progression start.toInt stop.toInt step.toInt ↔
      ∃ n ∈ rangeWords start step (Sequence.rangeCount start.toInt stop.toInt step.toInt),
        n.toInt = x := by
    intro x
    simp only [Sequence.progression_eq hstep, rangeWords, Set.mem_image, Finset.mem_coe,
      Finset.mem_range, List.mem_map, List.mem_range]
    constructor
    · rintro ⟨i, hi, rfl⟩
      exact ⟨_, ⟨i, hi, rfl⟩, toInt_element hstep hi⟩
    · rintro ⟨_, ⟨i, hi, rfl⟩, rfl⟩
      exact ⟨i, hi, (toInt_element hstep hi).symm⟩
  refine ⟨?_, fun i h => ?_, fun i h => ?_, hmem, fun n hn => ?_⟩
  · rw [Sequence.ncard_progression hstep, rangeWords, List.length_map, List.length_range]
  · simp only [rangeWords, List.length_map, List.length_range] at h
    simp only [rangeWords, List.getElem_map, List.getElem_range, toInt_element hstep h]
  · simp only [rangeWords, List.getElem_map, List.getElem_range]
  · exact Sequence.between_of_mem_progression ((hmem n.toInt).2 ⟨n, hn, rfl⟩)

end

namespace Builtin

theorem range_apply (start stop step : Int64) (s : Store) :
    Builtin.range.apply [.int start, .int stop, .int step] s =
      (Op.ofExcept (Sequence.range start.toInt stop.toInt step.toInt) >>= fun xs =>
        Op.newArray (xs.map fun n => .int (Int64.ofInt n)).toArray) s := rfl

/-- A range is an array of the integers from the start on, in steps, before the stop, or there are
too many of them, and the refusal says how many. -/
theorem ranges_exact {start stop step : Int64} (hstep : step ≠ 0) (s : Store) :
    (Sequence.progression start.toInt stop.toInt step.toInt).Finite ∧
    ((Sequence.progression start.toInt stop.toInt step.toInt).ncard ≤ 2 ^ 26 →
      ∃ (r : Ref .array) (s' : Store) (xs : List Int64),
        Builtin.range.apply [.int start, .int stop, .int step] s = .ok (.array r) s' ∧
        s.Extends s' ∧ s'.content (.array r) = xs.map .int ∧ IsRange start stop step xs) ∧
    (2 ^ 26 < (Sequence.progression start.toInt stop.toInt step.toInt).ncard → ∃ e : Fault,
      Builtin.range.apply [.int start, .int stop, .int step] s = .error e s ∧
      e.message = "range too large: " ++
        toString (Sequence.progression start.toInt stop.toInt step.toInt).ncard ++
          " elements") := by
  have hzero : step.toInt ≠ 0 := fun h => hstep (Int64.toInt_inj.1 h)
  rw [Sequence.ncard_progression hzero]
  refine ⟨Sequence.finite_progression hzero, fun hfew => ?_, fun hmany => ?_⟩
  · rw [range_apply, Sequence.range_ok hzero hfew]
    refine ⟨_, _, rangeWords start step _, rfl, .newArray s _, ?_, isRange_rangeWords hzero⟩
    refine (congrArg Array.toList (Store.array_newArray s _)).trans ?_
    rw [rangeWords, List.map_map, List.map_map]
    exact List.map_congr_left fun i _ => congrArg Value.int (ofInt_element start step i)
  · rw [range_apply, Sequence.range_error hzero hmany]
    exact ⟨_, rfl, rfl⟩

theorem ranges_exact_down :
    (∃ (r : Ref .array) (s' : Store) (xs : List Int64),
      Builtin.range.apply [.int 5, .int 0, .int (-2)] .empty = .ok (.array r) s' ∧
      Store.empty.Extends s' ∧ s'.content (.array r) = xs.map .int ∧ IsRange 5 0 (-2) xs) ∧
    ∃ e : Fault, Builtin.range.apply [.int 0, .int 67108865, .int 1] .empty = .error e .empty ∧
      e.message = "range too large: 67108865 elements" := by
  have hfew : (Sequence.progression (5 : Int64).toInt (0 : Int64).toInt (-2 : Int64).toInt).ncard =
      3 := Sequence.ncard_progression (by decide)
  have hmany : (Sequence.progression (0 : Int64).toInt (67108865 : Int64).toInt
      (1 : Int64).toInt).ncard = 67108865 := Sequence.ncard_progression (by decide)
  obtain ⟨-, hok, -⟩ := @ranges_exact 5 0 (-2) (by decide) .empty
  obtain ⟨-, -, herror⟩ := @ranges_exact 0 67108865 1 (by decide) .empty
  rw [hfew] at hok
  rw [hmany] at herror
  exact ⟨hok (by decide), herror (by decide)⟩

end Builtin

end Spellbook
