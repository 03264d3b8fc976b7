import ExactDecimal.Decimal.Division
import ExactDecimal.Proofs.Value
/-!
A rounded quotient depends on the fraction alone and not on how it is written: a common factor of
dividend and divisor, of either sign, changes neither the quotient that is cut off nor what any
mode does about the rest. So division and the dropping of digits, which bring their operands to a
common scale first, only see values.
-/
namespace ExactDecimal

namespace RoundingMode

/-- Two signs at once do not matter. -/
theorem roundQuotient_neg (mode : RoundingMode) (n : Int) {d : Int} (hd : d ≠ 0) :
    mode.roundQuotient (-n) (-d) = mode.roundQuotient n d := by
  have hmod : (-n).tmod (-d) = -n.tmod d := by rw [Int.neg_tmod, Int.tmod_neg]
  by_cases hr : n.tmod d = 0
  · rw [roundQuotient_exact mode hr, roundQuotient_exact mode (by omega), Int.neg_tdiv_neg]
  · have hn : n ≠ 0 := by
      rintro rfl
      exact hr (Int.zero_tmod d)
    have hsign : (decide (-n < 0) != decide (-d < 0)) = (decide (n < 0) != decide (d < 0)) := by
      grind
    rw [roundQuotient, roundQuotient, Int.neg_tdiv_neg, hmod, hsign, Int.natAbs_neg, Int.natAbs_neg]
    simp only [Int.neg_eq_zero]

theorem roundQuotient_mul_of_pos (mode : RoundingMode) (n d : Int) {k : Int} (hk : 0 < k) :
    mode.roundQuotient (k * n) (k * d) = mode.roundQuotient n d := by
  have hneg (m : Int) : k * m < 0 ↔ m < 0 := by
    rw [Int.mul_neg_iff]
    omega
  have hhalf : compare (2 * (k * n.tmod d).natAbs) (k * d).natAbs =
      compare (2 * (n.tmod d).natAbs) d.natAbs := by
    rw [Int.natAbs_mul, Int.natAbs_mul, Nat.mul_left_comm, ← cmp_eq_compare, ← cmp_eq_compare,
      cmp_mul_pos_left (Int.natAbs_pos.mpr hk.ne')]
  rw [roundQuotient, roundQuotient, Int.mul_tdiv_mul_of_pos _ _ hk, Int.mul_tmod_mul_of_pos _ _ hk,
    hhalf]
  simp only [hneg, Int.mul_eq_zero, hk.ne', false_or]

theorem roundQuotient_mul (mode : RoundingMode) (n : Int) {d k : Int} (hd : d ≠ 0) (hk : k ≠ 0) :
    mode.roundQuotient (k * n) (k * d) = mode.roundQuotient n d := by
  obtain hk | hk := Int.lt_or_gt_of_ne hk
  · rw [← roundQuotient_neg mode n hd, ← roundQuotient_mul_of_pos mode (-n) (-d) (k := -k) (by omega),
      Int.neg_mul_neg, Int.neg_mul_neg]
  · exact roundQuotient_mul_of_pos mode n d hk

/-- Only the rational number counts. -/
theorem roundQuotient_congr (mode : RoundingMode) {n d n' d' : Int} (hd : d ≠ 0) (hd' : d' ≠ 0)
    (h : (n : ℚ) / d = n' / d') : mode.roundQuotient n d = mode.roundQuotient n' d' := by
  have hq : (d : ℚ) ≠ 0 := Int.cast_ne_zero.mpr hd
  have hq' : (d' : ℚ) ≠ 0 := Int.cast_ne_zero.mpr hd'
  have hcross : d' * n = d * n' := by
    rw [div_eq_div_iff hq hq'] at h
    have hz : n * d' = n' * d := by exact_mod_cast h
    rw [Int.mul_comm, hz, Int.mul_comm]
  rw [← roundQuotient_mul mode n hd hd', ← roundQuotient_mul mode n' hd' hd, hcross,
    Int.mul_comm d' d]

end RoundingMode

namespace Decimal

/-! ## Division -/

/-- What the dividend's scale is short of for a quotient at `scale`. -/
def shiftFor (a b : Decimal) (scale : Int) : Int := scale - a.scale + b.scale

theorem quotientAt_of_zero {a : Decimal} (ha : a.magnitude = 0) (b : Decimal) (scale : Int)
    (mode : RoundingMode) : a.quotientAt b scale mode = .ok 0 := if_pos (isZero_iff.mpr ha)

theorem quotientAt_by_zero {a b : Decimal} (ha : a.magnitude ≠ 0) (hb : b.magnitude = 0)
    (scale : Int) (mode : RoundingMode) :
    a.quotientAt b scale mode = .error .divisionByZero := by
  rw [quotientAt, if_neg (isZero_iff.not.mpr ha), if_pos (isZero_iff.mpr hb)]

variable {a b : Decimal} (ha : a.magnitude ≠ 0) (hb : b.magnitude ≠ 0)

include ha hb

theorem quotientAt_of_shift_lt {scale : Int} (h : (a.shiftFor b scale).natAbs < 4294967296)
    (mode : RoundingMode) :
    a.quotientAt b scale mode = mode.roundQuotient
      (a.magnitude * pow10 (a.shiftFor b scale).toNat)
      (b.magnitude * pow10 (-a.shiftFor b scale).toNat) := by
  rw [quotientAt, if_neg (isZero_iff.not.mpr ha), if_neg (isZero_iff.not.mpr hb)]
  change (powerOfTen (a.shiftFor b scale).toNat >>= fun up =>
    powerOfTen (-a.shiftFor b scale).toNat >>= fun down => _) = _
  rw [powerOfTen_of_lt (by omega), powerOfTen_of_lt (by omega)]
  rfl

theorem quotientAt_of_le_shift {scale : Int} (h : 4294967296 ≤ (a.shiftFor b scale).natAbs)
    (mode : RoundingMode) : a.quotientAt b scale mode = .error .scaleOverflow := by
  rw [quotientAt, if_neg (isZero_iff.not.mpr ha), if_neg (isZero_iff.not.mpr hb)]
  change (powerOfTen (a.shiftFor b scale).toNat >>= fun up =>
    powerOfTen (-a.shiftFor b scale).toNat >>= fun down => _) = _
  by_cases hs : 0 ≤ a.shiftFor b scale
  · rw [powerOfTen_of_le (by omega)]
    rfl
  · rw [powerOfTen_of_lt (by omega), powerOfTen_of_le (by omega)]
    rfl

theorem shiftFor_lt_of_quotientAt {scale : Int} {mode : RoundingMode}
    (h : a.quotientAt b scale mode ≠ .error .scaleOverflow) :
    (a.shiftFor b scale).natAbs < 4294967296 := by
  by_contra hle
  exact h (quotientAt_of_le_shift ha hb (by omega) mode)

omit ha hb

/-- The fraction that is rounded is the exact quotient, in units of the last place. -/
theorem cast_shifted_quotient (a b : Decimal) (scale : Int) :
    ((a.magnitude * pow10 (a.shiftFor b scale).toNat : Int) : ℚ) /
      (b.magnitude * pow10 (-a.shiftFor b scale).toNat : Int) = a.value / b.value * 10 ^ scale := by
  have hshift : (10 : ℚ) ^ (a.shiftFor b scale) = 10 ^ (-a.scale) / 10 ^ (-b.scale) * 10 ^ scale := by
    rw [← zpow_sub₀ (by decide), ← zpow_add₀ (by decide), shiftFor]
    congr 1
    omega
  rw [Int.cast_mul, Int.cast_mul, Int.cast_natCast, Int.cast_natCast, mul_div_mul_comm,
    pow10_toNat_div, hshift, value, value, mul_div_mul_comm, mul_assoc]

/-! ## Dropping digits -/

theorem dropDigits_of_lt (d : Decimal) {chop : Nat} (h : chop < 4294967296) (mode : RoundingMode) :
    d.dropDigits chop mode =
      mode.roundQuotient d.magnitude (pow10 chop) >>= (ofParts · (d.scale - chop)) := by
  rw [dropDigits, powerOfTen_of_lt h]
  rfl

theorem dropDigits_of_le (d : Decimal) {chop : Nat} (h : 4294967296 ≤ chop)
    (mode : RoundingMode) : d.dropDigits chop mode = .error .scaleOverflow := by
  rw [dropDigits, powerOfTen_of_le h]
  rfl

theorem chop_lt_of_dropDigits {d : Decimal} {chop : Nat} {mode : RoundingMode}
    (h : d.dropDigits chop mode ≠ .error .scaleOverflow) : chop < 4294967296 := by
  by_contra hle
  exact h (d.dropDigits_of_le (by omega) mode)

theorem cast_dropped_quotient (d : Decimal) (chop : Nat) :
    (d.magnitude : ℚ) / (pow10 chop : Int) = d.value * 10 ^ (d.scale - chop) := by
  rw [Int.cast_natCast, cast_pow10, value, mul_assoc, ← zpow_add₀ (by decide), div_eq_mul_inv,
    ← zpow_natCast, ← zpow_neg]
  congr 2
  omega

end Decimal

end ExactDecimal
