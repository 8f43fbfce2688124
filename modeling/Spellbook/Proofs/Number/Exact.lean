import Spellbook.Proofs.Number.Doubles
import Spellbook.Store.Equality

/-! Integers as doubles. The double nearest to an integer stands for that very integer if no more
than 53 bits of it count. -/
namespace Spellbook.Number

open Float.Model Float.Model.UnpackedFloat

def IsShort (n : Nat) : Prop := ∃ k j, n = k * 2 ^ j ∧ k < 2 ^ 53

def leading (n : Nat) : Nat := n * 2 ^ 52 / 2 ^ n.log2

section Leading

variable {n : Nat}

theorem log2_mul_two_pow (hn : n ≠ 0) (k : Nat) : (n * 2 ^ k).log2 = n.log2 + k := by
  have hpos := Nat.two_pow_pos k
  rw [Nat.log2_eq_iff (Nat.mul_ne_zero hn (Nat.ne_of_gt hpos)), Nat.add_right_comm, Nat.pow_add,
    Nat.pow_add]
  exact ⟨Nat.mul_le_mul_right _ (Nat.log2_self_le hn),
    Nat.mul_lt_mul_of_pos_right Nat.lt_log2_self hpos⟩

theorem log2_leading (hn : n ≠ 0) : (leading n).log2 = 52 := by
  have hlow := Nat.log2_self_le hn
  have hhigh := Nat.lt_log2_self (n := n)
  have hpos := Nat.two_pow_pos n.log2
  have hle : 2 ^ 52 ≤ leading n := by
    rw [leading, Nat.le_div_iff_mul_le hpos]
    rw [Nat.mul_comm]
    exact Nat.mul_le_mul_right _ hlow
  have hlt : leading n < 2 ^ 53 := by
    rw [leading, Nat.div_lt_iff_lt_mul hpos]
    rw [Nat.pow_succ] at hhigh
    omega
  exact (Nat.log2_eq_iff (by omega)).2 ⟨hle, hlt⟩

theorem leading_pos (hn : n ≠ 0) : 0 < leading n := by
  have h := log2_leading hn
  refine Nat.pos_of_ne_zero fun h0 => ?_
  rw [h0] at h
  cases h

theorem leading_shift {k : Nat} (hk : 52 ≤ n.log2 + k) :
    n * 2 ^ k / 2 ^ (n.log2 + k - 52) = leading n := by
  have hsplit : 2 ^ n.log2 * 2 ^ k = 2 ^ (n.log2 + k - 52) * 2 ^ 52 := by
    rw [← Nat.pow_add, ← Nat.pow_add]
    congr 1
    omega
  rw [leading, ← Nat.mul_div_mul_right _ (2 ^ n.log2) (Nat.two_pow_pos k), hsplit,
    Nat.mul_right_comm, Nat.mul_div_mul_right _ _ (Nat.two_pow_pos 52)]

theorem IsShort.dvd (h : IsShort n) (hn : n ≠ 0) {k : Nat} :
    2 ^ (n.log2 + k - 52) ∣ n * 2 ^ k := by
  obtain ⟨q, j, rfl, hq⟩ := h
  have hq0 : q ≠ 0 := by
    rintro rfl
    exact hn (Nat.zero_mul _)
  rw [log2_mul_two_pow hq0] at *
  have hbound : q.log2 < 53 := (Nat.log2_lt hq0).2 hq
  rw [Nat.mul_assoc, ← Nat.pow_add]
  exact Nat.dvd_trans (Nat.pow_dvd_pow 2 (by omega)) (Nat.dvd_mul_left _ _)

end Leading

def exactly (s : Sign) (n : Nat) (hn : n ≠ 0) : UnpackedFloat :=
  .finite s (leading n) (n.log2 - 52) (leading_pos hn)

theorem shiftRight_exact (k : Nat) {m : Nat} (h : 2 ^ k ∣ m) :
    ExtendedMantissa.mk m false false >>> k = ⟨m / 2 ^ k, false, false⟩ := by
  induction k with
  | zero => simp [HShiftRight.hShiftRight, Nat.repeat]
  | succ k ih =>
    have hk : 2 ^ k ∣ m := Nat.dvd_trans (Nat.pow_dvd_pow 2 (Nat.le_succ k)) h
    obtain ⟨q, rfl⟩ := h
    have hq : 2 ^ (k + 1) * q / 2 ^ k = 2 * q := by
      rw [Nat.pow_succ, Nat.mul_assoc, Nat.mul_div_cancel_left _ (Nat.two_pow_pos k)]
    calc ExtendedMantissa.mk _ false false >>> (k + 1)
        = (ExtendedMantissa.mk _ false false >>> k).shiftRightOne := rfl
      _ = ⟨2 ^ (k + 1) * q / 2 ^ (k + 1), false, false⟩ := by
        rw [ih hk, hq, Nat.mul_div_cancel_left _ (Nat.two_pow_pos _)]
        simp [ExtendedMantissa.shiftRightOne]

theorem shiftToTargetExponent_exact {m k : Nat} {e : Int} (h : 2 ^ k ∣ m)
    (hk : (Format.binary64.targetExponent (totalExponent m e) - e).toNat = k) :
    shiftToTargetExponent Format.binary64 m e .exact = (⟨m / 2 ^ k, false, false⟩, e + k) := by
  simp only [shiftToTargetExponent, shiftToExponent, hk, ExtendedMantissa.ofMantissaAndAccuracy,
    shiftRight_exact k h]

theorem targetExponent_eq (t : Int) :
    Format.binary64.targetExponent t = max (t - 53) (-1074) := rfl

theorem round_short {n : Nat} (hn : n ≠ 0) (h : IsShort n) (s : Sign) {k : Nat}
    (hk : 52 ≤ n.log2 + k) :
    roundWithAccuracy Format.binary64 s (n * 2 ^ k) (-k) .exact = exactly s n hn := by
  have hlog := log2_mul_two_pow hn k
  have hfirst : shiftToTargetExponent Format.binary64 (n * 2 ^ k) (-k) .exact =
      (⟨leading n, false, false⟩, (n.log2 : Int) - 52) := by
    rw [shiftToTargetExponent_exact (h.dvd hn), leading_shift hk]
    · congr 1
      omega
    · rw [targetExponent_eq, totalExponent, hlog]
      omega
  have hsecond : shiftToTargetExponent Format.binary64 (leading n) ((n.log2 : Int) - 52) .exact =
      (⟨leading n, false, false⟩, (n.log2 : Int) - 52) := by
    rw [shiftToTargetExponent_exact (k := 0) (Nat.one_dvd _)]
    · simp
    · rw [targetExponent_eq, totalExponent, log2_leading hn]
      omega
  have hrounded : (ExtendedMantissa.mk (leading n) false false).roundedMantissa = leading n := rfl
  have hpos := leading_pos hn
  simp only [roundWithAccuracy, hfirst, hrounded, hsecond]
  rw [dif_neg (by omega)]
  rfl

theorem unpackSign_packComponents (s : Sign) (e : BitVec 11) (m : BitVec 52) :
    unpackSign (packComponents Format.binary64 s e m) = s.toBitVec := by
  have hs : s.toBitVec.toNat < 2 := s.toBitVec.isLt
  have he : e.toNat < 2 ^ 11 := e.isLt
  have hm : m.toNat < 2 ^ 52 := m.isLt
  have hbits : (packComponents Format.binary64 s e m).toNat =
      s.toBitVec.toNat * 2 ^ 63 + e.toNat * 2 ^ 52 + m.toNat := by
    show ((s.toBitVec ++ e) ++ m).toNat = _
    rw [BitVec.toNat_append, BitVec.toNat_append, ← Nat.shiftLeft_add_eq_or_of_lt he,
      ← Nat.shiftLeft_add_eq_or_of_lt hm]
    omega
  apply BitVec.eq_of_toNat_eq
  rw [toNat_unpackSign, hbits]
  omega

theorem unpack_pack (s : Sign) {m : Nat} {e : Int} (h : 0 < m) (hm : m.log2 = 52)
    (he : -1074 ≤ e ∧ e ≤ 971) :
    (Float.Model.pack (.finite s m e h)).unpack = .finite s m e h := by
  have hmant : 2 ^ 52 ≤ m ∧ m < 2 ^ 53 := (Nat.log2_eq_iff (by omega)).1 hm
  have hpack : UnpackedFloat.pack Format.binary64 (.finite s m e h) =
      packComponents Format.binary64 s (BitVec.ofNat 11 (e + 1075).toNat) (BitVec.ofNat 52 m) := by
    have hbias : e + (Format.binary64.exponentBias : Int) + (52 : Nat) = e + 1075 := by
      rw [show Format.binary64.exponentBias = 1023 from by decide]
      omega
    unfold UnpackedFloat.pack
    simp only [hbias, hm]
    rw [if_neg, if_pos (by decide)]
    show ¬ 2048 ≤ _
    omega
  show UnpackedFloat.unpack Format.binary64 (UnpackedFloat.pack Format.binary64 _) = _
  have hexp : (BitVec.ofNat 11 (e + 1075).toNat).toNat = (e + 1075).toNat := by
    rw [BitVec.toNat_ofNat, Nat.mod_eq_of_lt (by omega)]
  have htop : BitVec.ofNat 11 (e + 1075).toNat ≠ -1#11 := by
    rw [← BitVec.toNat_ne_iff_ne, hexp]
    show _ ≠ 2047
    omega
  have hlow : BitVec.ofNat 11 (e + 1075).toNat ≠ 0#11 := by
    rw [← BitVec.toNat_ne_iff_ne, hexp]
    show _ ≠ 0
    omega
  have hone : (1#1 ++ BitVec.ofNat 52 m).toNat = m := by
    rw [toNat_leading, BitVec.toNat_ofNat]
    omega
  have hsign : Sign.ofBitVec s.toBitVec = s := by cases s <;> rfl
  rw [hpack]
  unfold UnpackedFloat.unpack
  simp only [unpackMantissa_packComponents, unpackExponent_packComponents,
    unpackSign_packComponents, hsign, hone, hexp]
  rw [if_neg htop, if_neg hlow, show Format.binary64.exponentBias = 1023 from by decide]
  congr 1
  omega

theorem unpack_pack_exactly (s : Sign) {n : Nat} (hn : n ≠ 0) (hlog : n.log2 ≤ 1000) :
    (Float.Model.pack (exactly s n hn)).unpack = exactly s n hn :=
  unpack_pack s (leading_pos hn) (log2_leading hn) (by omega)

section Short

variable {n : Nat} (hn : n ≠ 0) (h : IsShort n)
include hn h

theorem round_whole (hlog : n.log2 ≤ 52) :
    round Format.binary64 .positive n 0 = exactly .positive n hn := by
  have hk : (0 - Format.binary64.targetExponent (totalExponent n 0)).toNat = 52 - n.log2 := by
    rw [targetExponent_eq, totalExponent]
    omega
  have hround := round_short hn h .positive (k := 52 - n.log2) (by omega)
  simp only [UnpackedFloat.round, decreaseExponent]
  rw [hk, Nat.shiftLeft_eq, Int.zero_sub]
  exact hround

theorem unpack_toUInt64 (hlt : n < 2 ^ 53) :
    n.toUInt64.toFloat.toModel.unpack = exactly .positive n hn := by
  have hlog : n.log2 < 53 := (Nat.log2_lt hn).2 hlt
  have hnat : n.toUInt64.toNat = n := by
    simp
    omega
  show (Float.Model.pack (normalize Format.binary64 (n.toUInt64.toNat : Nat) 0 .positive)).unpack = _
  have hpos : compare (n : Int) 0 = .gt := by
    rw [Int.compare_eq_gt]
    omega
  have hnormal : normalize Format.binary64 n 0 .positive = exactly .positive n hn := by
    simp only [UnpackedFloat.normalize, hpos, Int.toNat_natCast]
    exact round_whole hn h (by omega)
  rw [hnat, hnormal]
  exact unpack_pack_exactly _ hn (by omega)

theorem short_mul_one {m k : Nat} {e : Int} {hm : 0 < m} (hk : 52 ≤ n.log2 + k)
    (hvalue : m = n * 2 ^ k) (he : e = -k) (j : Nat) {hj : 0 < 2 ^ j} :
    UnpackedFloat.mul Format.binary64 (.finite .positive m e hm) (.finite .positive (2 ^ j) (-j) hj) =
      exactly .positive n hn := by
  have hround := round_short hn h .positive (k := k + j) (by omega)
  have hexp : -(k : Int) + -(j : Int) = -((k + j : Nat) : Int) := by omega
  simp only [UnpackedFloat.mul, hvalue, he, Nat.mul_assoc, ← Nat.pow_add, hexp]
  exact hround

theorem unpack_ofNat (hlog : n.log2 ≤ 1000) :
    (Float.ofNat n).toModel.unpack = exactly .positive n hn := by
  show (Float.ofScientific n false 0).toModel.unpack = _
  unfold Float.ofScientific
  by_cases hlt : n < 2 ^ 53
  · have hlog' : n.log2 < 53 := (Nat.log2_lt hn).2 hlt
    have hone : (Float.ofBits 0x3FF0000000000000).toModel.unpack =
        .finite .positive (2 ^ 52) (-(52 : Nat)) (by decide) := rfl
    have hlead : leading n = n * 2 ^ (52 - n.log2) := by
      rw [← leading_shift (n := n) (k := 52 - n.log2) (by omega),
        show n.log2 + (52 - n.log2) - 52 = 0 by omega, Nat.pow_zero, Nat.div_one]
    have hproduct : UnpackedFloat.mul Format.binary64 (exactly .positive n hn)
        (.finite .positive (2 ^ 52) (-(52 : Nat)) (by decide)) = exactly .positive n hn :=
      short_mul_one hn h (k := 52 - n.log2) (by omega) hlead (by omega) 52
    rw [dif_pos ⟨hlt, Nat.zero_le _⟩]
    show (Float.Model.pack (UnpackedFloat.mul Format.binary64 n.toUInt64.toFloat.toModel.unpack
      (Float.ofBits 0x3FF0000000000000).toModel.unpack)).unpack = _
    rw [unpack_toUInt64 hn h hlt, hone, hproduct]
    exact unpack_pack_exactly _ hn hlog
  · rw [dif_neg fun hfast => hlt hfast.1]
    have hsmall : ¬ (0 : Int) < -((2 ^ Format.binary64.exponentBits : Int) + n.log2) := by
      rw [show (2 : Int) ^ Format.binary64.exponentBits = 2048 from rfl]
      omega
    have hscientific : UnpackedFloat.ofScientific Format.binary64 n 0 = exactly .positive n hn := by
      unfold UnpackedFloat.ofScientific
      rw [dif_neg hn, if_neg (by decide), if_neg hsmall, if_pos (Int.le_refl 0)]
      exact short_mul_one hn h (k := 53) (by omega) (Nat.shiftLeft_eq _ _) rfl 0
    show (Float.Model.pack (UnpackedFloat.ofScientific Format.binary64 n 0)).unpack = _
    rw [hscientific]
    exact unpack_pack_exactly _ hn hlog

theorem leading_value : leading n * 2 ^ ((n.log2 : Int) - 52).toNat =
    n * 2 ^ (-((n.log2 : Int) - 52)).toNat := by
  by_cases hlog : 52 ≤ n.log2
  · have hdvd : 2 ^ (n.log2 - 52) ∣ n := by simpa using h.dvd hn (k := 0)
    have hlead : leading n = n / 2 ^ (n.log2 - 52) := by
      simpa using (leading_shift (n := n) (k := 0) (by omega)).symm
    rw [show ((n.log2 : Int) - 52).toNat = n.log2 - 52 by omega,
      show (-((n.log2 : Int) - 52)).toNat = 0 by omega, hlead, Nat.div_mul_cancel hdvd, Nat.pow_zero,
      Nat.mul_one]
  · have hlead := leading_shift (n := n) (k := 52 - n.log2) (by omega)
    rw [show n.log2 + (52 - n.log2) - 52 = 0 by omega, Nat.pow_zero, Nat.div_one] at hlead
    rw [show ((n.log2 : Int) - 52).toNat = 0 by omega,
      show (-((n.log2 : Int) - 52)).toNat = 52 - n.log2 by omega, hlead, Nat.pow_zero, Nat.mul_one]

end Short

theorem double_ofInt {i : Int} (hi : i.natAbs ≠ 0) (h : IsShort i.natAbs)
    (hlog : i.natAbs.log2 ≤ 1000) :
    Double.of (Float.ofInt i) =
      .finite (decide (i < 0)) (leading i.natAbs) ((i.natAbs.log2 : Int) - 52) := by
  rw [Double.of_eq]
  cases i with
  | ofNat m =>
    have hnat := unpack_ofNat (n := m) hi h hlog
    show Double.unpacked (Float.ofNat m).toModel.unpack = _
    rw [hnat]
    simp [Double.unpacked, exactly, isMinus]
  | negSucc m =>
    have hnat := unpack_ofNat (n := m + 1) hi h hlog
    have hneg : (exactly .positive (m + 1) hi).neg = exactly .negative (m + 1) hi := rfl
    have hpack := unpack_pack_exactly .negative (n := m + 1) hi hlog
    show Double.unpacked (Float.Model.pack (Float.ofNat (m + 1)).toModel.unpack.neg).unpack = _
    rw [hnat, hneg, hpack]
    simp [Double.unpacked, exactly, isMinus]

theorem signed_natAbs (i : Int) : signed (decide (i < 0)) i.natAbs = i := by
  simp only [signed, decide_eq_true_eq]
  split <;> omega

theorem natAbs_toInt_lt (n : Int64) : n.toInt.natAbs < 2 ^ 64 := by
  have hlow := n.le_toInt
  have hhigh := n.toInt_lt
  omega

theorem toFloat_short {n : Int64} (h : IsShort n.toInt.natAbs) :
    isIntegral (Store.toFloat n) = true ∧ truncate? (Store.toFloat n) = some n.toInt := by
  by_cases hn : n.toInt.natAbs = 0
  · rw [Store.toFloat, show n.toInt = 0 by omega]
    decide +kernel
  · have hlog : n.toInt.natAbs.log2 < 64 := (Nat.log2_lt hn).2 (natAbs_toInt_lt n)
    have hdouble := double_ofInt hn h (by omega)
    have hvalue := leading_value hn h
    constructor
    · simp only [isIntegral, Store.toFloat, hdouble, Nat.pow_eq, hvalue]
      simp
    · simp only [truncate?, Store.toFloat, hdouble, Double.floorMagnitude, Nat.pow_eq, hvalue,
        Nat.mul_div_cancel _ (Nat.two_pow_pos _), signed_natAbs]

theorem mantissa_lt {b : Nat} {s : Bool} {m : Nat} {e : Int} (h : Double.ofBits b = .finite s m e) :
    m < 2 ^ 53 := by
  have hfraction : b % 2 ^ 52 < 2 ^ 52 := Nat.mod_lt _ (by decide)
  unfold Double.ofBits at h
  simp only [Nat.pow_eq] at h
  split at h
  · split at h <;> cases h
  · split at h <;> cases h <;> omega

theorem short_of_truncate? {x : Float} {n : Int} (h : truncate? x = some n) :
    IsShort n.natAbs := by
  unfold truncate? at h
  cases hd : Double.of x with
  | nan => rw [hd] at h; cases h
  | infinite s => rw [hd] at h; cases h
  | finite s m e =>
    rw [hd] at h
    have hm := mantissa_lt hd
    have habs : n.natAbs = m * 2 ^ e.toNat / 2 ^ (-e).toNat := by
      have hsigned : signed s (Double.floorMagnitude m e) = n := Option.some.inj h
      rw [← hsigned, signed]
      split <;> simp only [Int.natAbs_neg, Int.natAbs_natCast] <;> rfl
    by_cases he : 0 ≤ e
    · refine ⟨m, e.toNat, ?_, hm⟩
      rw [habs, show (-e).toNat = 0 by omega, Nat.pow_zero, Nat.div_one]
    · refine ⟨m / 2 ^ (-e).toNat, 0, ?_, Nat.lt_of_le_of_lt (Nat.div_le_self _ _) hm⟩
      rw [habs, show e.toNat = 0 by omega, Nat.pow_zero, Nat.mul_one, Nat.mul_one]

end Spellbook.Number
