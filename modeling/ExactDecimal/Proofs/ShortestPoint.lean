import ExactDecimal.Proofs.Shortest
/-!
Where the search for the shortest decimal ends: at the point that is nearest to the number among
those of its grid in the rounding interval, on the coarsest grid that has any there. A number of the
interval with fewer digits would end below the power of ten that has as many digits as the point.
That power would then lie in the interval too, and on a coarser grid. So the point has the fewest
digits, and for the same reason a number with as many lies on the same grid, unless the count is
one. One digit on a finer grid takes an interval that is wide beside the number, which then is one
of the least of the format. There the next power of ten lies so near above it that no digit below
comes as close.
-/
namespace ExactDecimal

namespace BinaryFormat

/-- The number `n · 10 ^ exponent`, counted in least positive numbers. -/
def decimalUnits (f : BinaryFormat) (n : Nat) (exponent : Int) : ℚ := n * 10 ^ exponent * 2 ^ f.depth

/-- What the search for the shortest decimal of a code ends with. -/
structure ShortestPoint (f : BinaryFormat) (code p : Nat) (exponent : Int) : Prop where
  rounds : RoundsTo f (f.decimalUnits p exponent) code
  coarsest : ∀ (n : Nat) (e : Int), RoundsTo f (f.decimalUnits n e) code → e ≤ exponent
  nearest : ∀ n : Nat, RoundsTo f (f.decimalUnits n exponent) code →
    |f.decimalUnits p exponent - f.units code| ≤ |f.decimalUnits n exponent - f.units code|

variable {f : BinaryFormat} {j : Nat}

/-! ## Decimals in units -/

section Sizes

variable {n : Nat} {e k : Int}

theorem decimalUnits_mono {m n : Nat} {j k : Int} (h : (m : ℚ) * 10 ^ j ≤ n * 10 ^ k) :
    f.decimalUnits m j ≤ f.decimalUnits n k :=
  mul_le_mul_of_nonneg_right h (by positivity)

theorem decimalUnits_one (f : BinaryFormat) (k : Int) :
    f.decimalUnits 1 k = 10 ^ k * 2 ^ f.depth := by
  rw [decimalUnits, Nat.cast_one, one_mul]

theorem decimalUnits_le_power (h : digitCount n + e ≤ k) :
    f.decimalUnits n e ≤ f.decimalUnits 1 k := by
  apply decimalUnits_mono
  rw [Nat.cast_one, one_mul]
  exact (mul_ten_zpow_lt n e).le.trans (zpow_le_zpow_right₀ (by decide) h)

theorem power_le_decimalUnits (hn : n ≠ 0) (h : k < digitCount n + e) :
    f.decimalUnits 1 k ≤ f.decimalUnits n e := by
  apply decimalUnits_mono
  rw [Nat.cast_one, one_mul]
  exact (zpow_le_zpow_right₀ (by decide) (by omega)).trans (ten_zpow_le_mul hn e)

end Sizes

theorem RoundsTo.pos {x : ℚ} (h : RoundsTo f x (j + 1)) : 0 < x := by
  have habove := h.above 0 (Nat.succ_pos j)
  rw [doubleMidpoint_zero, Nat.cast_one] at habove
  linarith

theorem ne_zero_of_roundsTo {n : Nat} {e : Int} (h : RoundsTo f (f.decimalUnits n e) (j + 1)) :
    n ≠ 0 := by
  rintro rfl
  have hpos := h.pos
  rw [decimalUnits, Nat.cast_zero, zero_mul, zero_mul] at hpos
  exact hpos.false

/-! ## The search -/

/-- The search ends with such a point. -/
theorem shortestPoint_coarsest (f : BinaryFormat) (hc : j + 1 < f.infinity) :
    ShortestPoint f (j + 1)
      ((RoundingInterval.ofCode f (j + 1)).coarsest f.depth (f.depth + 309)).1
      (((RoundingInterval.ofCode f (j + 1)).coarsest f.depth (f.depth + 309)).2 - f.depth) := by
  have hspec := RoundingInterval.coarsest_spec f j f.depth (f.depth + 309)
  refine ⟨(RoundingInterval.holdsPoint_iff f j _ _).mp hspec.holds, ?_, ?_⟩
  · intro n e h
    -- grids finer than the finest that is searched do not matter
    by_cases hfine : e < -(f.depth : Int)
    · omega
    have hpow : (0 : ℚ) < 10 ^ e * 2 ^ f.depth := mul_pos (ten_zpow_pos _) (by positivity)
    have hone : (1 : ℚ) ≤ n := Nat.one_le_cast.mpr (Nat.pos_of_ne_zero (ne_zero_of_roundsTo h))
    have hlt := h.lt_units_infinity hc
    rw [decimalUnits, mul_assoc] at hlt
    have hupper := lt_of_grid_lt_infinity ((le_mul_of_one_le_left hpow.le hone).trans_lt hlt)
    obtain ⟨k, rfl⟩ : ∃ k : Nat, e = k - f.depth := ⟨(e + f.depth).toNat, by omega⟩
    have hk := hspec.coarsest k n (by omega) ((RoundingInterval.holdsPoint_iff f j k n).mpr h)
    omega
  · intro n h
    have hle := RoundingInterval.coarsest_nearest f j f.depth (f.depth + 309)
      ((RoundingInterval.holdsPoint_iff f j _ n).mpr h)
    rw [decimalUnits, decimalUnits, ← RoundingInterval.gridDistance_div,
      ← RoundingInterval.gridDistance_div]
    exact div_le_div_of_nonneg_right (Int.cast_le.mpr hle) (Nat.cast_nonneg _)

namespace ShortestPoint

variable {p n : Nat} {exponent e : Int}

/-- A zero at the end would be a coarser grid. -/
theorem not_ten_dvd (h : ShortestPoint f (j + 1) p exponent) : ¬ 10 ∣ p := by
  rintro ⟨q, rfl⟩
  have hunits : f.decimalUnits (10 * q) exponent = f.decimalUnits q (exponent + 1) := by
    rw [decimalUnits, decimalUnits, zpow_add_one₀ (by decide)]
    push_cast
    ring
  have hle := h.coarsest q (exponent + 1) (hunits ▸ h.rounds)
  omega

/-! ## Digit counts -/

/-- The power of ten with as many digits as the point is between it and every number of the interval
that ends below it. It is on the grid of the point only if it has one digit. -/
theorem digitCount_eq_one_of_lt (h : ShortestPoint f (j + 1) p exponent)
    (hn : RoundsTo f (f.decimalUnits n e) (j + 1))
    (hlt : digitCount n + e < digitCount p + exponent) : digitCount p = 1 := by
  have hpos := digitCount_pos p
  have hpower : RoundsTo f (f.decimalUnits 1 (digitCount p - 1 + exponent)) (j + 1) :=
    hn.of_between h.rounds (decimalUnits_le_power (by omega))
      (power_le_decimalUnits (ne_zero_of_roundsTo h.rounds) (by omega))
  have hk := h.coarsest 1 _ hpower
  omega

theorem digitCount_le (h : ShortestPoint f (j + 1) p exponent)
    (hn : RoundsTo f (f.decimalUnits n e) (j + 1)) : digitCount p ≤ digitCount n := by
  by_contra hlt
  have he := h.coarsest n e hn
  have hpos := digitCount_pos n
  have hone := h.digitCount_eq_one_of_lt hn (by omega)
  omega

end ShortestPoint

/-! ## Points of one digit -/

/-- The least power of ten above one unit lies right above an integer. -/
theorem exists_power_near_units (f : BinaryFormat) :
    ∃ i t : Nat, 0 < t ∧ t < 9 ∧ t * pow10 i ≤ pow2 f.depth ∧
      19 * pow2 f.depth ≤ 20 * (t * pow10 i) := by
  cases f with
  | single => exact ⟨44, 7, by decide +kernel⟩
  | double => exact ⟨323, 2, by decide +kernel⟩

theorem decimalUnits_neg_mul (f : BinaryFormat) (i : Nat) :
    f.decimalUnits 1 (-(i : Int)) * pow10 i = pow2 f.depth := by
  rw [decimalUnits_one, mul_right_comm, cast_pow10_zpow, ← zpow_add₀ (by decide), neg_add_cancel,
    zpow_zero, one_mul, cast_pow2]

theorem ten_mul_decimalUnits_le (n : Nat) {i k : Int} (h : i < k) :
    10 * f.decimalUnits n i ≤ f.decimalUnits n k := by
  have hpow : (10 : ℚ) ^ (i + 1) ≤ 10 ^ k := zpow_le_zpow_right₀ (by decide) h
  have hn : (0 : ℚ) ≤ n * 2 ^ f.depth := by positivity
  calc
    10 * f.decimalUnits n i = n * 2 ^ f.depth * 10 ^ (i + 1) := by
      rw [decimalUnits, zpow_add_one₀ (by decide)]
      ring
    _ ≤ n * 2 ^ f.depth * 10 ^ k := mul_le_mul_of_nonneg_left hpow hn
    _ = f.decimalUnits n k := by rw [decimalUnits, mul_right_comm]

/-- A power of ten that is rounded down to an integer of one digit is hardly above it. -/
theorem power_near_units {s : Nat} {k : Int} (hs0 : 0 < s) (hs : s < 10)
    (hl : (s : ℚ) < f.decimalUnits 1 k) (hu : 2 * f.decimalUnits 1 k ≤ 2 * s + 1) :
    19 * f.decimalUnits 1 k ≤ 20 * s := by
  obtain ⟨i, t, ht0, ht, hlower, hupper⟩ := f.exists_power_near_units
  have hten : (0 : ℚ) < pow10 i := Nat.cast_pos.mpr (pow10_pos i)
  have hlower : (t : ℚ) ≤ f.decimalUnits 1 (-(i : Int)) := by
    rw [← mul_le_mul_iff_left₀ hten, decimalUnits_neg_mul]
    exact_mod_cast hlower
  have hupper : 19 * f.decimalUnits 1 (-(i : Int)) ≤ 20 * t := by
    rw [← mul_le_mul_iff_left₀ hten, mul_assoc, decimalUnits_neg_mul, mul_assoc]
    exact_mod_cast hupper
  have hs0 : (1 : ℚ) ≤ s := Nat.one_le_cast.mpr hs0
  have hs : (s : ℚ) ≤ 9 := by exact_mod_cast Nat.le_of_lt_succ hs
  have ht0 : (1 : ℚ) ≤ t := Nat.one_le_cast.mpr ht0
  have ht8 : (t : ℚ) ≤ 8 := by exact_mod_cast Nat.le_of_lt_succ ht
  obtain hk | rfl | hk := lt_trichotomy k (-(i : Int))
  · -- the powers below are less than one unit
    have := ten_mul_decimalUnits_le (f := f) 1 hk
    linarith
  · have hle : 19 * s < 20 * t := by
      have : 19 * (s : ℚ) < 20 * t := by linarith
      exact_mod_cast this
    have hge : 2 * t ≤ 2 * s + 1 := by
      have : 2 * (t : ℚ) ≤ 2 * s + 1 := by linarith
      exact_mod_cast this
    obtain rfl : s = t := by omega
    exact hupper
  · -- the powers above are ten units or more
    have := ten_mul_decimalUnits_le (f := f) 1 hk
    linarith

/-- An interval that is wide beside the number belongs to one of the least numbers. -/
theorem units_lt_ten_of_wide {x y : ℚ} (hx : RoundsTo f x (j + 1)) (hy : RoundsTo f y (j + 1))
    (hxy : 10 * x ≤ 9 * y) (hlt : f.units (j + 1) < y) :
    f.shift (j + 1) = 0 ∧ f.units (j + 1) < 10 := by
  have hstep : (0 : ℚ) < pow2 (f.shift (j + 1)) := Nat.cast_pos.mpr (pow2_pos _)
  have hwide := (le_abs_self _).trans (hy.abs_sub_le hx)
  have hunits : (f.units (j + 1) : ℚ) = f.significand (j + 1) * pow2 (f.shift (j + 1)) :=
    Nat.cast_mul _ _
  have hsig : (f.significand (j + 1) : ℚ) < (10 : Nat) := by
    by_contra hge
    have := mul_le_mul_of_nonneg_right (not_lt.mp hge) hstep.le
    push_cast at this
    linarith
  have hsig := Nat.cast_lt.mp hsig
  have hbit : 10 ≤ pow2 f.fractionBits := by cases f <;> decide
  have hshift := (f.significand_normal (j + 1)).resolve_right (by omega)
  refine ⟨hshift, ?_⟩
  rw [units, hshift, pow2_zero, Nat.mul_one]
  exact hsig

theorem power_near_of_wide {x : ℚ} {k : Int} (hx : RoundsTo f x (j + 1))
    (hpower : RoundsTo f (f.decimalUnits 1 k) (j + 1)) (hwide : 10 * x ≤ 9 * f.decimalUnits 1 k)
    (hlt : f.units (j + 1) < f.decimalUnits 1 k) :
    19 * f.decimalUnits 1 k ≤ 20 * f.units (j + 1) := by
  obtain ⟨hshift, hten⟩ := units_lt_ten_of_wide hx hpower hwide hlt
  have hunits := (f.roundsTo_units (j + 1)).pos
  have hbelow := hpower.below
  rw [cast_doubleMidpoint, f.units_succ (j + 1), hshift, pow2_zero, Nat.cast_add,
    Nat.cast_one] at hbelow
  exact power_near_units (Nat.cast_pos.mp hunits) hten hlt (by linarith)

/-- One digit on a finer grid is at most nine tenths of the power of ten. -/
theorem ten_mul_le_nine_mul {n : Nat} {e k : Int} (hn : digitCount n = 1) (he : e < k) :
    10 * f.decimalUnits n e ≤ 9 * f.decimalUnits 1 k := by
  have hten := ten_mul_decimalUnits_le (f := f) 1 he
  have hn : (n : ℚ) ≤ 9 := by
    have hlt := lt_pow10_digitCount n
    rw [hn] at hlt
    exact_mod_cast Nat.le_of_lt_succ hlt
  have hpos : 0 ≤ f.decimalUnits 1 e := by
    rw [decimalUnits_one]
    exact mul_nonneg (ten_zpow_pos e).le (by positivity)
  have hle : f.decimalUnits n e ≤ 9 * f.decimalUnits 1 e := by
    rw [decimalUnits, mul_assoc, ← decimalUnits_one]
    exact mul_le_mul_of_nonneg_right hn hpos
  linarith

namespace ShortestPoint

variable {p n : Nat} {exponent e : Int}

theorem nearest_of_one_digit (h : ShortestPoint f (j + 1) p exponent) (hp : digitCount p = 1)
    (hn : RoundsTo f (f.decimalUnits n e) (j + 1)) (hd : digitCount n = 1) (he : e < exponent) :
    |f.decimalUnits p exponent - f.units (j + 1)| ≤ |f.decimalUnits n e - f.units (j + 1)| := by
  have hpower : RoundsTo f (f.decimalUnits 1 exponent) (j + 1) :=
    hn.of_between h.rounds (decimalUnits_le_power (by omega))
      (power_le_decimalUnits (ne_zero_of_roundsTo h.rounds) (by omega))
  have hsmall := ten_mul_le_nine_mul (f := f) hd he
  -- the power of ten can stand for the point, which is no farther away
  refine (h.nearest 1 hpower).trans ?_
  obtain hge | hlt := le_or_gt (f.decimalUnits 1 exponent) (f.units (j + 1))
  · have hpos := hpower.pos
    rw [abs_of_nonpos (by linarith), abs_of_nonpos (by linarith)]
    linarith
  · have hpos := (f.roundsTo_units (j + 1)).pos
    have hnear := power_near_of_wide hn hpower hsmall hlt
    rw [abs_of_pos (by linarith), abs_of_neg (by linarith)]
    linarith

/-- No number of the interval with as many digits is nearer than the point. -/
theorem nearest_of_digitCount_eq (h : ShortestPoint f (j + 1) p exponent)
    (hn : RoundsTo f (f.decimalUnits n e) (j + 1)) (hd : digitCount n = digitCount p) :
    |f.decimalUnits p exponent - f.units (j + 1)| ≤ |f.decimalUnits n e - f.units (j + 1)| := by
  obtain rfl | he := eq_or_lt_of_le (h.coarsest n e hn)
  · exact h.nearest n hn
  · have hp := h.digitCount_eq_one_of_lt hn (by omega)
    exact h.nearest_of_one_digit hp hn (hd.trans hp) he

end ShortestPoint

/-! ## Integers -/

/-- The number to which an integer is rounded is an integer. -/
theorem RoundsTo.dvd_units {m : Nat} (h : RoundsTo f (m * 2 ^ f.depth) (j + 1)) :
    pow2 f.depth ∣ f.units (j + 1) := by
  obtain hle | hle := Nat.le_total f.depth (f.shift (j + 1))
  · have hpow : pow2 f.depth ∣ pow2 (f.shift (j + 1)) := Nat.pow_dvd_pow 2 hle
    exact hpow.mul_left _
  · -- both are multiples of the step, and no more than half a step apart
    obtain ⟨q, hq⟩ : pow2 (f.shift (j + 1)) ∣ pow2 f.depth := Nat.pow_dvd_pow 2 hle
    have hstep : (0 : ℚ) < pow2 (f.shift (j + 1)) := Nat.cast_pos.mpr (pow2_pos _)
    have hm : (m : ℚ) * 2 ^ f.depth = (m * q : Nat) * pow2 (f.shift (j + 1)) := by
      rw [← cast_pow2, hq]
      push_cast
      ring
    have hunits : (f.units (j + 1) : ℚ) = f.significand (j + 1) * pow2 (f.shift (j + 1)) :=
      Nat.cast_mul _ _
    have hhalf := h.two_mul_abs_sub_le
    rw [hm, hunits, ← sub_mul, abs_mul, abs_of_pos hstep, ← mul_assoc,
      mul_le_iff_le_one_left hstep] at hhalf
    have hint : 2 * |((m * q : Nat) : Int) - f.significand (j + 1)| ≤ 1 := by
      exact_mod_cast hhalf
    rw [Int.abs_eq_natAbs] at hint
    have heq : f.significand (j + 1) = m * q := by omega
    refine ⟨m, ?_⟩
    rw [units, heq, hq]
    ring

/-- The grid of the point is that of the integers, or a coarser one, if and only if the number is an
integer. -/
theorem ShortestPoint.exponent_nonneg_iff {p : Nat} {exponent : Int}
    (h : ShortestPoint f (j + 1) p exponent) : 0 ≤ exponent ↔ pow2 f.depth ∣ f.units (j + 1) := by
  constructor
  · intro he
    have hround := h.rounds
    rw [decimalUnits, ← cast_pow10_toNat he, ← Nat.cast_mul] at hround
    exact hround.dvd_units
  · rintro ⟨n, hn⟩
    have hunits : (f.units (j + 1) : ℚ) = f.decimalUnits n 0 := by
      rw [hn, Nat.cast_mul, cast_pow2, decimalUnits, zpow_zero, mul_one, mul_comm]
    exact h.coarsest n 0 (hunits ▸ f.roundsTo_units (j + 1))

end BinaryFormat

end ExactDecimal
