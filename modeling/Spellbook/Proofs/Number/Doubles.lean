import Mathlib
import Spellbook.Number.Double

/-! Doubles compared and taken apart. Two that compare equal are the same double or both zero. -/
namespace Spellbook.Number

open Float.Model Float.Model.UnpackedFloat

def isMinus : Sign → Bool
  | .negative => true
  | .positive => false

def Double.unpacked : UnpackedFloat → Double
  | .notANumber => .nan
  | .infinity s => .infinite (isMinus s)
  | .zero s => .finite (isMinus s) 0 (-1074)
  | .finite s m e _ => .finite (isMinus s) m e

section Fields

variable (b : BitVec Format.binary64.numBits)

theorem toNat_unpackMantissa : (unpackMantissa b).toNat = b.toNat % 2 ^ 52 := by
  simp [unpackMantissa]

theorem toNat_unpackExponent : (unpackExponent b).toNat = b.toNat / 2 ^ 52 % 2048 := by
  simp [unpackExponent, Nat.shiftRight_eq_div_pow]

theorem toNat_unpackSign : (unpackSign b).toNat = b.toNat / 2 ^ 63 % 2 := by
  simp [unpackSign, Nat.shiftRight_eq_div_pow]

theorem isMinus_unpackSign :
    isMinus (Sign.ofBitVec (unpackSign b)) = (b.toNat / 2 ^ 63 % 2 == 1) := by
  rw [← toNat_unpackSign]
  generalize unpackSign b = v
  revert v
  decide

theorem toNat_leading (v : BitVec 52) : (1#1 ++ v).toNat = 2 ^ 52 + v.toNat := by
  rw [BitVec.toNat_append, ← Nat.shiftLeft_add_eq_or_of_lt v.isLt]
  rfl

theorem unpackExponent_eq_iff (w : BitVec 11) :
    unpackExponent b = w ↔ b.toNat / 2 ^ 52 % 2048 = w.toNat := by
  rw [← toNat_unpackExponent, ← BitVec.toNat_inj]

theorem unpackMantissa_eq_zero_iff : unpackMantissa b = 0#52 ↔ b.toNat % 2 ^ 52 = 0 := by
  rw [← toNat_unpackMantissa, ← BitVec.toNat_inj]
  rfl

theorem Double.ofBits_eq :
    Double.ofBits b.toNat = Double.unpacked (UnpackedFloat.unpack Format.binary64 b) := by
  have htop : unpackExponent b = -1#_ ↔ b.toNat / 2 ^ 52 % 2048 = 2047 :=
    unpackExponent_eq_iff b _
  have hlow : unpackExponent b = 0#_ ↔ b.toNat / 2 ^ 52 % 2048 = 0 := unpackExponent_eq_iff b _
  have hbias : Format.binary64.exponentBias = 1023 := by decide
  unfold Double.ofBits UnpackedFloat.unpack
  simp only [Nat.pow_eq, htop, hlow]
  by_cases hmant : b.toNat % 2 ^ 52 = 0
  · have hnone := (unpackMantissa_eq_zero_iff b).2 hmant
    rw [if_pos hmant, if_pos hnone, dif_pos hnone, hmant]
    split
    · simp only [unpacked, isMinus_unpackSign]
    · split
      · simp only [unpacked, isMinus_unpackSign]
      · simp only [unpacked, isMinus_unpackSign, toNat_leading, toNat_unpackMantissa,
          toNat_unpackExponent, hbias, hmant, Double.finite.injEq, true_and]
        omega
  · have hsome := fun h => hmant ((unpackMantissa_eq_zero_iff b).1 h)
    rw [if_neg hmant, if_neg hsome, dif_neg hsome]
    split
    · rfl
    · split
      · rename_i h0
        simp only [unpacked, isMinus_unpackSign, toNat_unpackMantissa, toNat_unpackExponent, h0,
          hbias]
        rfl
      · simp only [unpacked, isMinus_unpackSign, toNat_leading, toNat_unpackMantissa,
          toNat_unpackExponent, hbias, Double.finite.injEq, true_and]
        omega

end Fields

theorem Double.of_eq (x : Float) : Double.of x = Double.unpacked x.toModel.unpack :=
  Double.ofBits_eq x.toModel.toBits.toBitVec

def Double.IsZero : Double → Prop
  | .finite _ 0 _ => True
  | _ => False

theorem Double.eq_of_compare {u v : UnpackedFloat} (h : u.compare v = some .eq) :
    unpacked u = unpacked v ∨ (unpacked u).IsZero ∧ (unpacked v).IsZero := by
  cases u with
  | notANumber => cases h
  | infinity s =>
    cases v with
    | infinity t => cases s <;> cases t <;> first | exact .inl rfl | cases h
    | notANumber => cases s <;> cases h
    | zero t => cases s <;> cases h
    | finite t m e hm => cases s <;> cases h
  | zero s =>
    cases v with
    | zero t => exact .inr ⟨trivial, trivial⟩
    | infinity t => cases t <;> cases h
    | notANumber => cases h
    | finite t m e hm => cases t <;> cases h
  | finite s m e hm =>
    cases v with
    | finite t m' e' hm' =>
      left
      cases s <;> cases t <;>
        simp [UnpackedFloat.compare, Ordering.swap_eq_eq, Ordering.then_eq_eq] at h <;>
        simp [unpacked, h]
    | infinity t => cases s <;> cases t <;> cases h
    | notANumber => cases s <;> cases h
    | zero t => cases s <;> cases h

def Double.fields : Double → Bool × Nat × Nat
  | .nan => (false, 2047, 1)
  | .infinite s => (s, 2047, 0)
  | .finite s m e => if m < 2 ^ 52 then (s, 0, m) else (s, (e + 1075).toNat, m - 2 ^ 52)

theorem Double.fields_ofBits {b : Nat} (h : ofBits b ≠ .nan) :
    (ofBits b).fields = (b / 2 ^ 63 % 2 == 1, b / 2 ^ 52 % 2048, b % 2 ^ 52) := by
  have hfraction : b % 2 ^ 52 < 2 ^ 52 := Nat.mod_lt _ (by decide)
  unfold ofBits at h ⊢
  simp only [Nat.pow_eq] at h ⊢
  split
  · split
    · simp only [fields, *]
    · simp_all
  · split
    · simp only [fields, if_true, *]
    · have hlarge : ¬ 2 ^ 52 + b % 2 ^ 52 < 2 ^ 52 := by omega
      have hexponent : ((b / 2 ^ 52 % 2048 : Nat) - 1075 + 1075 : Int).toNat
          = b / 2 ^ 52 % 2048 := by omega
      simp only [fields, if_neg hlarge, hexponent, Nat.add_sub_cancel_left]

theorem Double.ofBits_inj {b c : Nat} (hb : b < 2 ^ 64) (hc : c < 2 ^ 64)
    (h : ofBits b = ofBits c) (hnan : ofBits b ≠ .nan) : b = c := by
  have hfields := congrArg fields h
  rw [fields_ofBits hnan, fields_ofBits (h ▸ hnan)] at hfields
  obtain ⟨hsign, hrest⟩ := Prod.mk.inj hfields
  obtain ⟨hexponent, hfraction⟩ := Prod.mk.inj hrest
  rw [Bool.eq_iff_iff, beq_iff_eq, beq_iff_eq] at hsign
  omega

theorem eq_of_double {x y : Float} (h : Double.of x = Double.of y) (hnan : Double.of x ≠ .nan) :
    x = y := by
  obtain ⟨⟨b, hx⟩⟩ := x
  obtain ⟨⟨c, hy⟩⟩ := y
  have hbits : b = c := UInt64.toNat_inj.1 (Double.ofBits_inj b.toNat_lt c.toNat_lt h hnan)
  subst hbits
  rfl

theorem eq_of_beq {x y : Float} (h : (x == y) = true) :
    x = y ∨ (Double.of x).IsZero ∧ (Double.of y).IsZero := by
  have hcompare : x.toModel.unpack.compare y.toModel.unpack = some .eq := by
    simpa using (show (_ == some Ordering.eq) = true from h)
  have hsame := Double.eq_of_compare hcompare
  rw [← Double.of_eq, ← Double.of_eq] at hsame
  refine hsame.imp_left fun heq => eq_of_double heq fun hnan => ?_
  rw [Double.of_eq] at hnan
  cases hu : x.toModel.unpack with
  | notANumber => simp [hu, UnpackedFloat.compare] at hcompare
  | infinity s => simp [hu, Double.unpacked] at hnan
  | zero s => simp [hu, Double.unpacked] at hnan
  | finite s m e hm => simp [hu, Double.unpacked] at hnan

end Spellbook.Number
