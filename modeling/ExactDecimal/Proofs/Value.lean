import ExactDecimal.Decimal.Basic
import Mathlib.Algebra.Order.Field.Power
import Mathlib.Algebra.Order.Ring.Rat
import Mathlib.Data.Int.Cast.Lemmas
/-!
The rational number that a decimal stands for. A decimal can be written at every scale that is not
below its own, and at a common scale values are ordered and added as magnitudes are. So every
question about values becomes one about integers, whatever the signs of the scales.
-/
namespace ExactDecimal

@[simp] theorem cast_pow10 (k : Nat) : (pow10 k : ℚ) = 10 ^ k := by
  simp [pow10]

@[simp] theorem cast_pow2 (k : Nat) : (pow2 k : ℚ) = 2 ^ k := by
  simp [pow2]

theorem ten_zpow_pos (k : Int) : (0 : ℚ) < 10 ^ k := zpow_pos (by decide) k

theorem cast_pow10_zpow (k : Nat) : (pow10 k : ℚ) = 10 ^ (k : Int) := by
  rw [cast_pow10, zpow_natCast]

/-- A difference of exponents that is known not to be negative. -/
theorem cast_pow10_toNat {k : Int} (h : 0 ≤ k) : (pow10 k.toNat : ℚ) = 10 ^ k := by
  rw [cast_pow10_zpow, Int.toNat_of_nonneg h]

/-- Of the two powers that a shift calls for one is trivial. -/
theorem pow10_toNat_div (k : Int) : (pow10 k.toNat : ℚ) / pow10 (-k).toNat = 10 ^ k := by
  by_cases hk : 0 ≤ k
  · have hz : (-k).toNat = 0 := by omega
    rw [hz, cast_pow10_toNat hk, pow10_zero, Nat.cast_one, div_one]
  · have hz : k.toNat = 0 := by omega
    rw [hz, cast_pow10_toNat (by omega), pow10_zero, Nat.cast_one, one_div, zpow_neg, inv_inv]

theorem pow10_sub_div (j k : Nat) : (pow10 (j - k) : ℚ) / pow10 (k - j) = 10 ^ ((j : Int) - k) := by
  have hup : ((j : Int) - k).toNat = j - k := by omega
  have hdown : (-((j : Int) - k)).toNat = k - j := by omega
  rw [← pow10_toNat_div, hup, hdown]

/-- The digit count tells the power of ten next above a number, and the one next below it. -/
theorem mul_ten_zpow_lt (n : Nat) (e : Int) : (n : ℚ) * 10 ^ e < 10 ^ (digitCount n + e) := by
  have hn : (n : ℚ) < 10 ^ (digitCount n : Int) := by
    rw [← cast_pow10_zpow]
    exact Nat.cast_lt.mpr (lt_pow10_digitCount n)
  rw [zpow_add₀ (by decide)]
  exact mul_lt_mul_of_pos_right hn (ten_zpow_pos e)

theorem ten_zpow_le_mul {n : Nat} (h : n ≠ 0) (e : Int) :
    (10 : ℚ) ^ (digitCount n + e - 1) ≤ n * 10 ^ e := by
  have hpos := digitCount_pos n
  have hn : (10 : ℚ) ^ ((digitCount n - 1 : Nat) : Int) ≤ n := by
    rw [← cast_pow10_zpow]
    exact Nat.cast_le.mpr (pow10_le_of_lt_digitCount h (by omega))
  have he : digitCount n + e - 1 = (digitCount n - 1 : Nat) + e := by omega
  rw [he, zpow_add₀ (by decide)]
  exact mul_le_mul_of_nonneg_right hn (ten_zpow_pos e).le

/-- What is not smaller does not begin at a lower place. -/
theorem digitCount_add_le {m n : Nat} (hm : m ≠ 0) {i j : Int}
    (h : (m : ℚ) * 10 ^ i ≤ n * 10 ^ j) : digitCount m + i ≤ digitCount n + j := by
  have hlt := ((ten_zpow_le_mul hm i).trans h).trans_lt (mul_ten_zpow_lt n j)
  have := (zpow_lt_zpow_iff_right₀ (by decide)).mp hlt
  omega

theorem dvd_iff_exists_cast_div {n d : Int} (hd : d ≠ 0) : d ∣ n ↔ ∃ k : Int, (n : ℚ) / d = k := by
  have hq : (d : ℚ) ≠ 0 := Int.cast_ne_zero.mpr hd
  constructor
  · rintro ⟨k, rfl⟩
    exact ⟨k, by rw [Int.cast_mul, mul_div_cancel_left₀ _ hq]⟩
  · rintro ⟨k, hk⟩
    rw [div_eq_iff hq] at hk
    exact ⟨k, by rw [mul_comm]; exact_mod_cast hk⟩

/-- Whether a number is an integer in units of the last of `scale` places. -/
def IsExactAt (x : ℚ) (scale : Int) : Prop := ∃ n : Int, x * 10 ^ scale = n

theorem isExactAt_zero (scale : Int) : IsExactAt 0 scale := ⟨0, by rw [zero_mul, Int.cast_zero]⟩

theorem IsExactAt.neg {x : ℚ} {scale : Int} (h : IsExactAt x scale) : IsExactAt (-x) scale := by
  obtain ⟨n, hn⟩ := h
  exact ⟨-n, by rw [neg_mul, hn, Int.cast_neg]⟩

theorem isExactAt_zpow {k scale : Int} (h : 0 ≤ k + scale) : IsExactAt (10 ^ k) scale :=
  ⟨pow10 (k + scale).toNat, by rw [← zpow_add₀ (by decide), Int.cast_natCast, cast_pow10_toNat h]⟩

namespace Decimal

/-- The exact value. -/
def value (d : Decimal) : ℚ := d.magnitude * 10 ^ (-d.scale)

@[simp] theorem value_ofInt (n : Int) : (ofInt n).value = n := by simp [value, ofInt]

@[simp] theorem value_neg (d : Decimal) : (-d).value = -d.value := by simp [value]

theorem value_eq_zero_iff {d : Decimal} : d.value = 0 ↔ d.magnitude = 0 := by
  rw [value, mul_eq_zero, Int.cast_eq_zero, or_iff_left (ten_zpow_pos _).ne']

theorem value_neg_iff {d : Decimal} : d.value < 0 ↔ d.magnitude < 0 := by
  rw [value, ← zero_mul ((10 : ℚ) ^ (-d.scale)), mul_lt_mul_iff_left₀ (ten_zpow_pos _),
    Int.cast_lt_zero]

theorem isNegative_eq (d : Decimal) : d.isNegative = decide (d.value < 0) := by
  rw [isNegative, decide_eq_decide, value_neg_iff]

theorem abs_value_eq (d : Decimal) : |d.value| = d.magnitude.natAbs * 10 ^ (-d.scale) := by
  rw [value, abs_mul, abs_of_pos (ten_zpow_pos _), Nat.cast_natAbs, Int.cast_abs]

/-- A decimal written at a scale of at least its own has the same value there. -/
theorem value_mul_ten_zpow {d : Decimal} {s : Int} (h : d.scale ≤ s) :
    d.value * 10 ^ s = d.magnitudeAt s := by
  have hs : (10 : ℚ) ^ (-d.scale) * 10 ^ s = 10 ^ (s - d.scale) := by
    rw [← zpow_add₀ (by decide)]
    congr 1
    omega
  rw [value, magnitudeAt, Int.cast_mul, Int.cast_natCast, cast_pow10_toNat (by omega),
    mul_assoc, hs]

theorem isExactAt_value (d : Decimal) : IsExactAt d.value d.scale :=
  ⟨d.magnitude, by rw [value_mul_ten_zpow le_rfl, magnitudeAt_self]⟩

/-- A value that is exact at a smaller scale has a zero for its last digit. -/
theorem ten_dvd_of_isExactAt {d : Decimal} {s : Int} (hs : s < d.scale) (h : IsExactAt d.value s) :
    10 ∣ d.magnitude := by
  obtain ⟨n, hn⟩ := h
  obtain ⟨k, hk⟩ : ∃ k : Nat, d.scale = s + (k + 1 : Nat) := ⟨(d.scale - s - 1).toNat, by omega⟩
  have hm : (d.magnitude : ℚ) = n * (pow10 k * 10 : Nat) := by
    rw [← magnitudeAt_self, ← value_mul_ten_zpow le_rfl, hk, zpow_add₀ (by decide), ← mul_assoc, hn,
      ← cast_pow10_zpow, pow10_succ]
  refine ⟨n * pow10 k, ?_⟩
  rw [Int.mul_comm 10, Int.mul_assoc]
  exact_mod_cast hm

theorem value_eq_iff {a b : Decimal} {s : Int} (ha : a.scale ≤ s) (hb : b.scale ≤ s) :
    a.value = b.value ↔ a.magnitudeAt s = b.magnitudeAt s := by
  rw [← mul_left_inj' (ten_zpow_pos s).ne', value_mul_ten_zpow ha, value_mul_ten_zpow hb,
    Int.cast_inj]

theorem value_lt_iff {a b : Decimal} {s : Int} (ha : a.scale ≤ s) (hb : b.scale ≤ s) :
    a.value < b.value ↔ a.magnitudeAt s < b.magnitudeAt s := by
  rw [← mul_lt_mul_iff_left₀ (ten_zpow_pos s), value_mul_ten_zpow ha, value_mul_ten_zpow hb,
    Int.cast_lt]

/-- At a common scale, values compare as magnitudes do. -/
theorem compare_magnitudeAt {a b : Decimal} {s : Int} (ha : a.scale ≤ s) (hb : b.scale ≤ s) :
    compare (a.magnitudeAt s) (b.magnitudeAt s) = compare a.value b.value := by
  rw [compare_iff]
  cases h : compare a.value b.value with
  | lt => exact (value_lt_iff ha hb).mp (compare_lt_iff_lt.mp h)
  | eq => exact (value_eq_iff ha hb).mp (compare_eq_iff_eq.mp h)
  | gt => exact (value_lt_iff hb ha).mp (compare_gt_iff_gt.mp h)

/-- More places multiply the magnitude up. -/
theorem magnitudeAt_add (d : Decimal) {s : Int} (h : d.scale ≤ s) (k : Nat) :
    d.magnitudeAt (s + k) = d.magnitudeAt s * pow10 k := by
  have he : (s + k - d.scale).toNat = (s - d.scale).toNat + k := by omega
  rw [magnitudeAt, magnitudeAt, he, pow10_add, Int.natCast_mul, mul_assoc]

theorem scale_le_add_left (a b : Decimal) : a.scale ≤ (a + b).scale := by
  rw [scale_add]; omega

theorem scale_le_add_right (a b : Decimal) : b.scale ≤ (a + b).scale := by
  rw [scale_add]; omega

theorem magnitude_add (a b : Decimal) :
    (a + b).magnitude = a.magnitudeAt (a + b).scale + b.magnitudeAt (a + b).scale := rfl

@[simp] theorem value_add (a b : Decimal) : (a + b).value = a.value + b.value := by
  have h : (a + b).value * 10 ^ (a + b).scale = (a.value + b.value) * 10 ^ (a + b).scale := by
    rw [value_mul_ten_zpow le_rfl, magnitudeAt_self, add_mul,
      value_mul_ten_zpow (scale_le_add_left a b), value_mul_ten_zpow (scale_le_add_right a b),
      magnitude_add, Int.cast_add]
  exact mul_right_cancel₀ (ten_zpow_pos _).ne' h

theorem magnitudeAt_neg (d : Decimal) (s : Int) : (-d).magnitudeAt s = -d.magnitudeAt s := by
  simp [magnitudeAt]

theorem magnitude_sub (a b : Decimal) :
    (a - b).magnitude = a.magnitudeAt (a - b).scale - b.magnitudeAt (a - b).scale := by
  rw [Int.sub_eq_add_neg, ← magnitudeAt_neg]
  rfl

@[simp] theorem value_sub (a b : Decimal) : (a - b).value = a.value - b.value := by
  change (a + -b).value = _
  rw [value_add, value_neg, sub_eq_add_neg]

end Decimal

end ExactDecimal
