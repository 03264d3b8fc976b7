import ExactDecimal.Binary.Nearest
import ExactDecimal.Proofs.Midpoints
import ExactDecimal.Proofs.Value
import Mathlib.Tactic.Ring
/-!
The search for the nearest code finds it. The leading places of a quotient tell its shift, and with
that the number below it; what division leaves over tells the side of the midpoint. Numbers that
the search does not even look at, for the size of the powers of ten in them, are past the last
midpoint below infinity, or not past the first one above zero.
-/
namespace ExactDecimal.BinaryFormat

variable (f : BinaryFormat)

/-- The code that is found, before infinity takes the place of large ones. -/
def unboundedCode (n d : Nat) : Nat :=
  let shift := Nat.log2 (n / d) - f.fractionBits
  shift * pow2 f.fractionBits + divNearestEven n (d * pow2 shift)

theorem nearestUnits_eq (n d : Nat) :
    f.nearestUnits n d = min f.infinity (f.unboundedCode n d) := rfl

/-- At the shift that is chosen, the quotient has the size of a significand. -/
theorem leading_places (m : Nat) :
    m / pow2 (Nat.log2 m - f.fractionBits) < 2 * pow2 f.fractionBits ∧
      (Nat.log2 m - f.fractionBits = 0 ∨
        pow2 f.fractionBits ≤ m / pow2 (Nat.log2 m - f.fractionBits)) := by
  have hp := pow2_pos f.fractionBits
  by_cases hm : m = 0
  · subst hm
    rw [Nat.zero_div]
    exact ⟨by omega, .inl (Nat.zero_sub _)⟩
  have hlower : pow2 (Nat.log2 m) ≤ m := Nat.log2_self_le hm
  have hupper : m < pow2 (Nat.log2 m + 1) := Nat.lt_log2_self
  by_cases hs : Nat.log2 m ≤ f.fractionBits
  · have hz : Nat.log2 m - f.fractionBits = 0 := by omega
    have hle : pow2 (Nat.log2 m + 1) ≤ pow2 (f.fractionBits + 1) :=
      Nat.pow_le_pow_right (by decide) (by omega)
    rw [pow2_succ f.fractionBits] at hle
    rw [hz, pow2_zero, Nat.div_one]
    exact ⟨by omega, .inl rfl⟩
  · have hlog : Nat.log2 m = f.fractionBits + (Nat.log2 m - f.fractionBits) := by omega
    rw [pow2_succ, hlog, pow2_add] at hupper
    rw [hlog, pow2_add] at hlower
    generalize Nat.log2 m - f.fractionBits = shift at *
    have hpos := pow2_pos shift
    refine ⟨?_, .inr ((Nat.le_div_iff_mul_le hpos).mpr hlower)⟩
    rw [Nat.div_lt_iff_lt_mul hpos, Nat.mul_assoc, Nat.mul_comm]
    exact hupper

/-- Half of the step that the shift makes is what the rest is compared with. -/
theorem divNearestEven_roundsTo {f : BinaryFormat} {n d shift : Nat} (hd : 0 < d)
    (hlt : n / (d * pow2 shift) < 2 * pow2 f.fractionBits)
    (hnormal : shift = 0 ∨ pow2 f.fractionBits ≤ n / (d * pow2 shift)) :
    RoundsTo f (n / d)
      (shift * pow2 f.fractionBits + divNearestEven n (d * pow2 shift)) := by
  rw [divNearestEven]
  have hn := Nat.div_add_mod' n (d * pow2 shift)
  have hr := Nat.mod_lt n (Nat.mul_pos hd (pow2_pos shift))
  generalize n % (d * pow2 shift) = rest at *
  generalize n / (d * pow2 shift) = quotient at *
  have hparity : (shift * pow2 f.fractionBits + quotient) % 2 = quotient % 2 := by
    rw [← significand_mod_two, significand_add hlt hnormal]
  have hunits : f.units (shift * pow2 f.fractionBits + quotient) * d =
      quotient * (d * pow2 shift) := by
    rw [units_add hlt hnormal]
    ac_rfl
  have hnext : f.units (shift * pow2 f.fractionBits + quotient + 1) * d =
      quotient * (d * pow2 shift) + d * pow2 shift := by
    rw [units_succ, shift_add hlt hnormal, Nat.add_mul, hunits, Nat.mul_comm (pow2 shift)]
  have hmid : f.doubleMidpoint (shift * pow2 f.fractionBits + quotient) * d =
      2 * (quotient * (d * pow2 shift)) + d * pow2 shift := by
    rw [doubleMidpoint, Nat.add_mul, hunits, hnext]
    omega
  by_cases hc : 2 * rest < d * pow2 shift ∨ 2 * rest = d * pow2 shift ∧ quotient % 2 = 0
  · rw [if_pos hc]
    apply roundsTo_div_of_below hd
    · omega
    · omega
    · omega
  · rw [if_neg hc, ← Nat.add_assoc]
    apply roundsTo_div_of_above hd
    · omega
    · omega
    · omega

theorem unboundedCode_roundsTo (n : Nat) {d : Nat} (hd : 0 < d) :
    RoundsTo f (n / d) (f.unboundedCode n d) := by
  obtain ⟨hlt, hnormal⟩ := f.leading_places (n / d)
  rw [Nat.div_div_eq_div_mul] at hlt hnormal
  exact divNearestEven_roundsTo hd hlt hnormal

/-! ## The shortcuts for powers of ten -/

theorem infinity_even : f.infinity % 2 = 0 := by
  cases f <;> decide

theorem infinity_pos : 0 < f.infinity := by
  cases f <;> decide

/-- All powers of two of the formats stay within these powers of ten. -/
theorem units_infinity_le : f.units f.infinity ≤ pow10 309 * pow2 f.depth := by
  cases f <;> decide +kernel

theorem two_mul_pow2_depth_le : 2 * pow2 f.depth ≤ pow10 324 := by
  cases f <;> decide +kernel

theorem doubleMidpoint_zero : f.doubleMidpoint 0 = 1 := by
  cases f <;> decide

theorem mul_pow10_lt_one {n k : Nat} {exponent : Int} (h : digitCount n + exponent + k ≤ 0) :
    (n : ℚ) * 10 ^ exponent * pow10 k < 1 := by
  rw [cast_pow10_zpow]
  calc
    (n : ℚ) * 10 ^ exponent * 10 ^ (k : Int) < 10 ^ (digitCount n + exponent) * 10 ^ (k : Int) :=
      mul_lt_mul_of_pos_right (mul_ten_zpow_lt n exponent) (ten_zpow_pos _)
    _ = 10 ^ (digitCount n + exponent + k) := (zpow_add₀ (by decide) _ _).symm
    _ ≤ 1 := zpow_le_one_of_nonpos₀ (by decide) h

theorem pow10_le_of_lt_digits {n k : Nat} (hn : n ≠ 0) {exponent : Int}
    (h : k < digitCount n + exponent) : (pow10 k : ℚ) ≤ n * 10 ^ exponent := by
  rw [cast_pow10_zpow]
  exact (zpow_le_zpow_right₀ (by decide) (by omega)).trans (ten_zpow_le_mul hn exponent)

/-- More than 323 zeros behind the point are not past the first midpoint. -/
theorem two_mul_le_of_digits_lt {n : Nat} {exponent : Int} (h : digitCount n + exponent < -323) :
    2 * ((n : ℚ) * 10 ^ exponent * 2 ^ f.depth) ≤ f.doubleMidpoint 0 := by
  have hpow : (2 * pow2 f.depth : ℚ) ≤ pow10 324 := by exact_mod_cast f.two_mul_pow2_depth_le
  have hx : 0 ≤ (n : ℚ) * 10 ^ exponent := mul_nonneg (Nat.cast_nonneg n) (ten_zpow_pos _).le
  rw [doubleMidpoint_zero, Nat.cast_one]
  calc
    2 * ((n : ℚ) * 10 ^ exponent * 2 ^ f.depth) = n * 10 ^ exponent * (2 * pow2 f.depth) := by
      rw [cast_pow2]
      ring
    _ ≤ n * 10 ^ exponent * pow10 324 := mul_le_mul_of_nonneg_left hpow hx
    _ ≤ 1 := (mul_pow10_lt_one (by omega)).le

/-- More than 309 digits before the point are past the last midpoint. -/
theorem le_two_mul_of_lt_digits {n : Nat} (hn : n ≠ 0) {exponent : Int}
    (h : 309 < digitCount n + exponent) :
    f.doubleMidpoint (f.infinity - 1) ≤ 2 * ((n : ℚ) * 10 ^ exponent * 2 ^ f.depth) := by
  have hpos := f.infinity_pos
  have hunits : (f.units f.infinity : ℚ) ≤ pow10 309 * pow2 f.depth := by
    exact_mod_cast f.units_infinity_le
  have hlast : (f.doubleMidpoint (f.infinity - 1) : ℚ) < 2 * f.units f.infinity :=
    midpoint_lt_units (by omega)
  have hlarge : (pow10 309 * pow2 f.depth : ℚ) ≤ n * 10 ^ exponent * 2 ^ f.depth := by
    rw [cast_pow2]
    exact mul_le_mul_of_nonneg_right (pow10_le_of_lt_digits hn h) (by positivity)
  linarith only [hunits, hlast, hlarge]

theorem le_infinity_iff {x : ℚ} {code : Nat} (h : RoundsTo f x code) :
    f.infinity ≤ code ↔ f.doubleMidpoint (f.infinity - 1) ≤ 2 * x := by
  have hpos := f.infinity_pos
  have heven := f.infinity_even
  have hlt := not_congr (h.le_iff_of_odd (k := f.infinity - 1) (by omega))
  rw [not_le, not_lt] at hlt
  rw [← hlt]
  omega

/-- The code is that of the number to which the exact value is rounded, or that of infinity. -/
theorem nearest_spec (n : Nat) (exponent : Int) :
    ∃ code, RoundsTo f (n * 10 ^ exponent * 2 ^ f.depth) code ∧
      f.nearest n exponent = min f.infinity code := by
  have hx : ((n * pow10 exponent.toNat * pow2 f.depth : Nat) : ℚ) / pow10 (-exponent).toNat =
      n * 10 ^ exponent * 2 ^ f.depth := by
    rw [← pow10_toNat_div, Nat.cast_mul, Nat.cast_mul, cast_pow2]
    ring
  have h := f.unboundedCode_roundsTo (n * pow10 exponent.toNat * pow2 f.depth)
    (pow10_pos (-exponent).toNat)
  rw [hx] at h
  refine ⟨_, h, ?_⟩
  simp only [nearest]
  split
  · rename_i hsmall
    have hle : 2 * ((n : ℚ) * 10 ^ exponent * 2 ^ f.depth) ≤ f.doubleMidpoint 0 := by
      obtain rfl | hlt := hsmall
      · simp
      · exact f.two_mul_le_of_digits_lt hlt
    have := (h.le_iff_of_even rfl).mpr hle
    omega
  · rename_i hsmall
    split
    · rename_i hlarge
      have hle := f.le_two_mul_of_lt_digits (fun hn => hsmall (.inl hn)) hlarge
      rw [Nat.min_eq_left ((f.le_infinity_iff h).mpr hle)]
    · exact f.nearestUnits_eq _ _

/-- Infinity is not met up to the largest finite number. -/
theorem nearest_of_le_largest {n : Nat} {exponent : Int}
    (h : n * 10 ^ exponent * 2 ^ f.depth ≤ (f.units (f.infinity - 1) : ℚ)) :
    RoundsTo f (n * 10 ^ exponent * 2 ^ f.depth) (f.nearest n exponent) ∧
      f.nearest n exponent < f.infinity := by
  obtain ⟨code, hcode, hnearest⟩ := f.nearest_spec n exponent
  have hlast := units_lt_midpoint (f := f) (le_refl (f.infinity - 1))
  have hlt : code < f.infinity := by
    rw [← not_le, f.le_infinity_iff hcode]
    linarith
  rw [hnearest, Nat.min_eq_right hlt.le]
  exact ⟨hcode, hlt⟩

end ExactDecimal.BinaryFormat
