import Spellbook.Number.Reader
import Spellbook.Proofs.Number.Exact

/-! Large integers as doubles. The double nearest to an integer is no less than the power of two
below it, and from half a unit past the greatest double on it is infinite. -/
namespace Spellbook.Number

open Float.Model Float.Model.UnpackedFloat

section Shifts

variable (em : ExtendedMantissa) (k : Nat)

theorem shiftRight_mantissa : (em >>> k).mantissa = em.mantissa / 2 ^ k := by
  induction k with
  | zero => exact (Nat.div_one _).symm
  | succ k ih =>
    calc (em >>> (k + 1)).mantissa
        = (em >>> k).mantissa / 2 := rfl
      _ = em.mantissa / 2 ^ (k + 1) := by rw [ih, Nat.div_div_eq_div_mul, Nat.pow_succ]

theorem shiftRight_roundBit :
    (em >>> (k + 1)).roundBit = (em.mantissa / 2 ^ k % 2 != 0) := by
  rw [← shiftRight_mantissa]
  rfl

theorem roundedMantissa_bounds :
    em.mantissa ≤ em.roundedMantissa ∧ em.roundedMantissa ≤ em.mantissa + 1 := by
  obtain ⟨m, r, t⟩ := em
  cases r <;> cases t <;>
    simp only [ExtendedMantissa.roundedMantissa, ExtendedMantissa.accuracy,
      Accuracy.roundToNearestEven] <;> omega

variable {em}

theorem roundedMantissa_below (h : em.roundBit = false) : em.roundedMantissa = em.mantissa := by
  obtain ⟨m, r, t⟩ := em
  cases h
  cases t <;> rfl

theorem roundedMantissa_above (h : em.roundBit = true) (hodd : em.mantissa % 2 = 1) :
    em.roundedMantissa = em.mantissa + 1 := by
  obtain ⟨m, r, t⟩ := em
  cases h
  cases t
  · exact congrArg (m + ·) hodd
  · rfl

end Shifts

/-- The first integer for which there is no double: half a unit past the greatest one. -/
def doubleLimit : Nat := 2 ^ 1024 - 2 ^ 970

theorem doubleLimit_eq : doubleLimit = (2 ^ 54 - 1) * 2 ^ 970 := by
  rw [doubleLimit, Nat.sub_mul, ← Nat.pow_add, Nat.one_mul]

/-- The first 54 bits of a number that has more: a mantissa and the bit behind it. -/
def firstBits (n : Nat) : Nat := n / 2 ^ (n.log2 - 53)

def cutOff (n : Nat) : ExtendedMantissa :=
  ExtendedMantissa.mk (n * 2 ^ 53) false false >>> (n.log2 + 1)

def roundedExponent (n : Nat) : Int :=
  if (cutOff n).roundedMantissa = 2 ^ 53 then n.log2 - 51 else n.log2 - 52

section Large

variable {n : Nat} (h : 2 ^ 53 ≤ n)
include h

theorem le_log2_of_large : 53 ≤ n.log2 := by
  by_contra hlog
  have hn : n ≠ 0 := by omega
  have hlt := (Nat.log2_lt hn).1 (show n.log2 < 53 by omega)
  omega

theorem firstBits_range : 2 ^ 53 ≤ firstBits n ∧ firstBits n < 2 ^ 54 := by
  have hlog := le_log2_of_large h
  have hpos := Nat.two_pow_pos (n.log2 - 53)
  have hlow := Nat.log2_self_le (n := n) (by omega)
  have hhigh := Nat.lt_log2_self (n := n)
  rw [firstBits, Nat.le_div_iff_mul_le hpos, Nat.div_lt_iff_lt_mul hpos, ← Nat.pow_add,
    ← Nat.pow_add, show 53 + (n.log2 - 53) = n.log2 by omega,
    show 54 + (n.log2 - 53) = n.log2 + 1 by omega]
  exact ⟨hlow, hhigh⟩

theorem shifted_eq : n * 2 ^ 53 / 2 ^ n.log2 = firstBits n := by
  have hlog := le_log2_of_large h
  have hsplit : 2 ^ n.log2 = 2 ^ (n.log2 - 53) * 2 ^ 53 := by
    rw [← Nat.pow_add]
    congr 1
    omega
  rw [hsplit, Nat.mul_div_mul_right _ _ (Nat.two_pow_pos 53), firstBits]

theorem cutOff_mantissa : (cutOff n).mantissa = firstBits n / 2 := by
  have hhalf : (cutOff n).mantissa =
      (ExtendedMantissa.mk (n * 2 ^ 53) false false >>> n.log2).mantissa / 2 := rfl
  rw [hhalf, shiftRight_mantissa, shifted_eq h]

theorem cutOff_roundBit : (cutOff n).roundBit = (firstBits n % 2 != 0) := by
  rw [cutOff, shiftRight_roundBit, shifted_eq h]

theorem roundedMantissa_range :
    2 ^ 52 ≤ (cutOff n).roundedMantissa ∧ (cutOff n).roundedMantissa ≤ 2 ^ 53 := by
  have hbits := firstBits_range h
  have hbounds := roundedMantissa_bounds (cutOff n)
  rw [cutOff_mantissa h] at hbounds
  omega

theorem carries_iff :
    (cutOff n).roundedMantissa = 2 ^ 53 ↔ (2 ^ 54 - 1) * 2 ^ (n.log2 - 53) ≤ n := by
  have hbits := firstBits_range h
  have hbounds := roundedMantissa_bounds (cutOff n)
  have hmantissa := cutOff_mantissa h
  have hbit := cutOff_roundBit h
  rw [← Nat.le_div_iff_mul_le (Nat.two_pow_pos _), ← firstBits]
  by_cases hall : firstBits n = 2 ^ 54 - 1
  · have habove := roundedMantissa_above (hbit.trans (by rw [hall]; rfl))
      (hmantissa.symm ▸ hall ▸ rfl)
    omega
  · by_cases heven : firstBits n % 2 = 0
    · have hbelow := roundedMantissa_below (hbit.trans (by rw [heven]; rfl))
      omega
    · omega

/-- The exponent passes a bound exactly from half a unit before the next power of two on. -/
theorem le_roundedExponent_iff (k : Nat) :
    (k : Int) + 2 ≤ roundedExponent n ↔ (2 ^ 54 - 1) * 2 ^ k ≤ n := by
  have hlog := le_log2_of_large h
  have hcarry := carries_iff h
  have hlimit : (2 ^ 54 - 1) * 2 ^ k ≤ n → k + 53 ≤ n.log2 := by
    intro hle
    rw [Nat.le_log2 (by omega), Nat.add_comm, Nat.pow_add]
    exact Nat.le_trans (Nat.mul_le_mul_right _ (by decide)) hle
  have hbeyond : k + 54 ≤ n.log2 → (2 ^ 54 - 1) * 2 ^ k ≤ n := by
    intro hle
    rw [Nat.le_log2 (by omega), Nat.add_comm, Nat.pow_add] at hle
    exact Nat.le_trans (Nat.mul_le_mul_right _ (by decide)) hle
  unfold roundedExponent
  by_cases htop : n.log2 = k + 53
  · rw [htop, Nat.add_sub_cancel] at hcarry
    rw [← hcarry]
    split <;> omega
  · split <;> omega

theorem round_large (s : Sign) : ∃ m hm, m.log2 = 52 ∧
    roundWithAccuracy Format.binary64 s (n * 2 ^ 53) (-53) .exact =
      .finite s m (roundedExponent n) hm := by
  have hlog := le_log2_of_large h
  have hn : n ≠ 0 := by omega
  have hrange := roundedMantissa_range h
  have hfirst : shiftToTargetExponent Format.binary64 (n * 2 ^ 53) (-53) .exact =
      (cutOff n, (n.log2 : Int) - 52) := by
    have hamount : (Format.binary64.targetExponent (totalExponent (n * 2 ^ 53) (-53)) -
        -53).toNat = n.log2 + 1 := by
      rw [targetExponent_eq, totalExponent, log2_mul_two_pow hn]
      omega
    simp only [shiftToTargetExponent, shiftToExponent, hamount,
      ExtendedMantissa.ofMantissaAndAccuracy]
    refine Prod.ext rfl ?_
    simp only
    omega
  by_cases hcarry : (cutOff n).roundedMantissa = 2 ^ 53
  · have hsecond : shiftToTargetExponent Format.binary64 (2 ^ 53) ((n.log2 : Int) - 52) .exact =
        (⟨2 ^ 52, false, false⟩, (n.log2 : Int) - 51) := by
      rw [shiftToTargetExponent_exact (k := 1) (by decide)]
      · congr 1
        omega
      · rw [targetExponent_eq, totalExponent, Nat.log2_two_pow]
        omega
    refine ⟨2 ^ 52, by decide, by decide, ?_⟩
    simp only [roundWithAccuracy, roundedExponent, hfirst, hcarry, hsecond, if_true]
    rfl
  · have hmantissa : (cutOff n).roundedMantissa.log2 = 52 :=
      (Nat.log2_eq_iff (by omega)).2 (by omega)
    have hsecond : shiftToTargetExponent Format.binary64 (cutOff n).roundedMantissa
        ((n.log2 : Int) - 52) .exact =
        (⟨(cutOff n).roundedMantissa, false, false⟩, (n.log2 : Int) - 52) := by
      rw [shiftToTargetExponent_exact (k := 0) (Nat.one_dvd _)]
      · simp
      · rw [targetExponent_eq, totalExponent, hmantissa]
        omega
    refine ⟨(cutOff n).roundedMantissa, by omega, hmantissa, ?_⟩
    simp only [roundWithAccuracy, roundedExponent, hfirst, hsecond, if_neg hcarry]
    rw [dif_neg (by omega)]

theorem ofScientific_large : UnpackedFloat.ofScientific Format.binary64 n 0 =
    roundWithAccuracy Format.binary64 .positive (n * 2 ^ 53) (-53) .exact := by
  have hn : n ≠ 0 := by omega
  have hsmall : ¬ (0 : Int) < -((2 ^ Format.binary64.exponentBits : Int) + n.log2) := by
    rw [show (2 : Int) ^ Format.binary64.exponentBits = 2048 from rfl]
    omega
  have hshift : n <<< Format.binary64.mantissaBits = n * 2 ^ 53 := Nat.shiftLeft_eq _ _
  unfold UnpackedFloat.ofScientific
  rw [dif_neg hn, if_neg (by decide), if_neg hsmall, if_pos (Int.le_refl 0)]
  simp only [UnpackedFloat.mul, hshift, Int.toNat_zero, Nat.pow_zero, Nat.mul_one, Int.add_zero]
  rfl

theorem toModel_ofScientific : (Float.ofScientific n false 0).toModel = Float.Model.pack
    (roundWithAccuracy Format.binary64 .positive (n * 2 ^ 53) (-53) .exact) := by
  have hslow : ¬ (n < 2 ^ 53 ∧ 0 ≤ 22) := fun hfast => by omega
  rw [← ofScientific_large h, Float.ofScientific, dif_neg hslow]
  rfl

end Large

theorem unpack_pack_infinity (s : Sign) :
    (Float.Model.pack (.infinity s)).unpack = .infinity s := by
  cases s <;> rfl

theorem unpack_pack_overflow (s : Sign) {m : Nat} {e : Int} (h : 0 < m) (he : 972 ≤ e) :
    (Float.Model.pack (.finite s m e h)).unpack = .infinity s := by
  have hpack : UnpackedFloat.pack Format.binary64 (.finite s m e h) =
      packedInfinity Format.binary64 s := by
    have hbias : e + (Format.binary64.exponentBias : Int) + (52 : Nat) = e + 1075 := by
      rw [show Format.binary64.exponentBias = 1023 from by decide]
      omega
    unfold UnpackedFloat.pack
    simp only [hbias]
    rw [if_pos]
    show 2048 ≤ _
    omega
  show UnpackedFloat.unpack Format.binary64 (UnpackedFloat.pack Format.binary64 _) = _
  rw [hpack]
  exact unpack_pack_infinity s

section Limit

variable {n : Nat} (h : 2 ^ 53 ≤ n)
include h

theorem limit_le_iff : doubleLimit ≤ n ↔ 972 ≤ roundedExponent n := by
  rw [doubleLimit_eq, ← le_roundedExponent_iff h]
  rfl

theorem unpack_ofScientific_infinite (hlimit : doubleLimit ≤ n) :
    (Float.ofScientific n false 0).toModel.unpack = .infinity .positive := by
  obtain ⟨m, hm, -, hround⟩ := round_large h .positive
  rw [toModel_ofScientific h, hround, unpack_pack_overflow _ _ ((limit_le_iff h).1 hlimit)]

theorem unpack_ofScientific_finite (hlimit : n < doubleLimit) :
    ∃ m e hm, m.log2 = 52 ∧ (n.log2 : Int) - 52 ≤ e ∧ e ≤ 971 ∧
      (Float.ofScientific n false 0).toModel.unpack = .finite .positive m e hm := by
  have hlog := le_log2_of_large h
  have hlow : (n.log2 : Int) - 52 ≤ roundedExponent n := by
    unfold roundedExponent
    split <;> omega
  have hhigh : roundedExponent n ≤ 971 :=
    Int.not_lt.1 fun hlt => Nat.not_le.2 hlimit ((limit_le_iff h).2 hlt)
  obtain ⟨m, hm, hmantissa, hround⟩ := round_large h .positive
  refine ⟨m, roundedExponent n, hm, hmantissa, hlow, hhigh, ?_⟩
  rw [toModel_ofScientific h, hround]
  exact unpack_pack _ hm hmantissa (by omega)

end Limit

theorem truncate?_finite {x : Float} {s : Sign} {m : Nat} {e : Int} {hm : 0 < m}
    (hx : x.toModel.unpack = .finite s m e hm) (he : 0 ≤ e) :
    truncate? x = some (signed (isMinus s) (m * 2 ^ e.toNat : Nat)) := by
  have hwhole : Double.floorMagnitude m e = m * 2 ^ e.toNat := by
    rw [Double.floorMagnitude, show (-e).toNat = 0 by omega]
    exact Nat.div_one _
  rw [truncate?, Double.of_eq, hx]
  simp only [Double.unpacked, hwhole]

theorem truncate?_infinite {x : Float} {s : Sign} (hx : x.toModel.unpack = .infinity s) :
    truncate? x = none := by
  rw [truncate?, Double.of_eq, hx]
  rfl

theorem truncate?_ofScientific {n : Nat} (h : 2 ^ 63 ≤ n) (hlimit : n < doubleLimit)
    (negative : Bool) : ∃ t : Nat, 2 ^ 63 ≤ t ∧
      truncate? (if negative then -Float.ofScientific n false 0 else Float.ofScientific n false 0) =
        some (signed negative t) := by
  obtain ⟨m, e, hm, hmantissa, hlow, hhigh, hx⟩ :=
    unpack_ofScientific_finite (Nat.le_trans (by decide) h) hlimit
  have hlog : 63 ≤ n.log2 := (Nat.le_log2 (by omega)).2 h
  have hneg : (-Float.ofScientific n false 0).toModel.unpack = .finite .negative m e hm := by
    show (Float.Model.pack (Float.ofScientific n false 0).toModel.unpack.neg).unpack = _
    rw [hx]
    exact unpack_pack _ hm hmantissa (by omega)
  refine ⟨m * 2 ^ e.toNat, ?_, ?_⟩
  · have hbits : 2 ^ 52 ≤ m := ((Nat.log2_eq_iff (by omega)).1 hmantissa).1
    calc 2 ^ 63 = 2 ^ 52 * 2 ^ 11 := by decide
      _ ≤ m * 2 ^ e.toNat :=
        Nat.mul_le_mul hbits (Nat.pow_le_pow_right (by decide) (by omega))
  · cases negative
    · exact truncate?_finite hx (by omega)
    · exact truncate?_finite hneg (by omega)

theorem doubleLimit_bounds : 2 ^ 64 ≤ doubleLimit ∧ doubleLimit < 10 ^ 400 := by
  decide +kernel

theorem nearest_eq {n : Nat} (hn : n ≠ 0) :
    nearest n 0 = if n < 10 ^ 400 then Float.ofScientific n false 0 else 1 / 0 := by
  have hdigits := Nat.length_toDigits_le_iff (n := n) (k := 400) (by decide : 1 < 10) (by decide)
  unfold nearest
  simp only [hn, decide_false, Bool.false_or, decide_eq_true_eq]
  rw [if_neg (by omega)]
  by_cases hlt : n < 10 ^ 400
  · rw [if_neg (by omega), if_pos hlt]
    rfl
  · rw [if_pos (by omega), if_neg hlt]

theorem truncate?_nearest_large {n : Nat} (h : 2 ^ 63 ≤ n) (hlimit : n < doubleLimit)
    (negative : Bool) : ∃ t : Nat, 2 ^ 63 ≤ t ∧
      truncate? (if negative then -nearest n 0 else nearest n 0) = some (signed negative t) := by
  rw [nearest_eq (by omega), if_pos (Nat.lt_trans hlimit doubleLimit_bounds.2)]
  exact truncate?_ofScientific h hlimit negative

theorem truncate?_nearest_infinite {n : Nat} (hlimit : doubleLimit ≤ n) (negative : Bool) :
    truncate? (if negative then -nearest n 0 else nearest n 0) = none := by
  have hinf : (nearest n 0).toModel.unpack = .infinity .positive := by
    have hlarge := Nat.le_trans doubleLimit_bounds.1 hlimit
    have hlarge : 2 ^ 53 ≤ n := by omega
    rw [nearest_eq (by omega)]
    split
    · exact unpack_ofScientific_infinite hlarge hlimit
    · rfl
  have hneg : (-nearest n 0).toModel.unpack = .infinity .negative := by
    show (Float.Model.pack (nearest n 0).toModel.unpack.neg).unpack = _
    rw [hinf]
    exact unpack_pack_infinity _
  cases negative
  · exact truncate?_infinite hinf
  · exact truncate?_infinite hneg

end Spellbook.Number
