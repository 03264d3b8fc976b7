import ExactDecimal.Proofs.Division
import ExactDecimal.Proofs.DigitBudget
/-!
Rounding keeps the order. On one grid that is a matter of two neighbouring integers: a mode that
takes the lower of two numbers up and the upper one down would have to treat one number in two ways.
Decimals of different sizes are rounded to a digit budget on different grids, but then a power of
ten lies between them that is a point of both grids. No rounding goes past it, on either side, so
that it does not matter which of the two is rounded at all, or carries.
-/
namespace ExactDecimal

/-! ## Integers -/

section Between

variable {x y : ℚ} {n : Int}

theorem abs_between_of_nonneg (h : 0 ≤ n) (hl : (n : ℚ) < x) (hu : x < (n + 1 : Int)) :
    |(n : ℚ)| < |x| ∧ |x| < |((n + 1 : Int) : ℚ)| := by
  have h : (0 : ℚ) ≤ n := Int.cast_nonneg h
  rw [abs_of_nonneg h, abs_of_pos (h.trans_lt hl), abs_of_pos ((h.trans_lt hl).trans hu)]
  exact ⟨hl, hu⟩

theorem abs_between_of_neg (h : n < 0) (hl : (n : ℚ) < x) (hu : x < (n + 1 : Int)) :
    |((n + 1 : Int) : ℚ)| < |x| ∧ |x| < |(n : ℚ)| := by
  have h : ((n + 1 : Int) : ℚ) ≤ 0 := Int.cast_nonpos.mpr h
  rw [abs_of_nonpos h, abs_of_neg (hu.trans_le h), abs_of_neg ((hl.trans hu).trans_le h)]
  exact ⟨neg_lt_neg hu, neg_lt_neg hl⟩

/-- Of two numbers between the same integers, the lower one is not nearer to the upper integer. -/
theorem eq_of_nearest_crossed (hx : IsNearestInteger x (n + 1)) (hy : IsNearestInteger y n)
    (hl : (n : ℚ) < x) (hxy : x ≤ y) (hu : y < (n + 1 : Int)) : x = y := by
  have hup := hx n
  have hdown := hy (n + 1)
  rw [abs_of_pos (sub_pos.mpr (hxy.trans_lt hu)), abs_of_neg (sub_neg.mpr hl)] at hup
  rw [abs_of_neg (sub_neg.mpr (hl.trans_le hxy)), abs_of_pos (sub_pos.mpr hu)] at hdown
  linarith

end Between

namespace RoundingMode

variable {mode : RoundingMode} {x y : ℚ}

/-- Every mode keeps the order. -/
theorem takes_mono {m n : Int} (hm : mode.Takes x m) (hn : mode.Takes y n) (h : x ≤ y) :
    m ≤ n := by
  by_contra hlt
  obtain rfl | hne := eq_or_ne x y
  · exact hlt (takes_unique hm hn).le
  -- only two neighbours with both numbers between them can be taken in the wrong order
  have hxm := abs_lt.mp (isNeighbour_of_takes hm)
  have hyn := abs_lt.mp (isNeighbour_of_takes hn)
  have hstep : (m : ℚ) < (n + 2 : Int) := by
    push_cast
    linarith
  have hstep : m < n + 2 := Int.cast_lt.mp hstep
  obtain rfl : m = n + 1 := by omega
  have hl : (n : ℚ) < x := by
    push_cast at hxm
    linarith
  have hu : y < (n + 1 : Int) := by
    push_cast
    linarith
  have hcrossed (hx : IsNearestInteger x (n + 1)) (hy : IsNearestInteger y n) : False :=
    hne (eq_of_nearest_crossed hx hy hl h hu)
  cases mode with
  | up =>
    obtain h0 | h0 := Int.lt_or_le n 0
    · exact (abs_between_of_neg h0 hl (h.trans_lt hu)).1.not_ge hm.2
    · exact (abs_between_of_nonneg h0 (hl.trans_le h) hu).1.not_ge hn.2
  | down =>
    obtain h0 | h0 := Int.lt_or_le n 0
    · exact (abs_between_of_neg h0 (hl.trans_le h) hu).2.not_ge hn.2
    · exact (abs_between_of_nonneg h0 hl (h.trans_lt hu)).2.not_ge hm.2
  | ceiling =>
    obtain rfl : n = ⌈y⌉ := hn
    exact ((Int.le_ceil y).trans_lt hl).not_ge h
  | floor =>
    have hm : n + 1 = ⌊x⌋ := hm
    rw [hm] at hu
    exact (hu.trans_le (Int.floor_le x)).not_ge h
  | halfUp => exact hcrossed hm.1 hn.1
  | halfDown => exact hcrossed hm.1 hn.1
  | halfEven => exact hcrossed hm.1 hn.1
  | unnecessary =>
    obtain rfl : (n : ℚ) = y := hn
    exact hl.not_ge h

/-- No mode goes up past an integer. -/
theorem takes_le {n k : Int} (h : mode.Takes x n) (hk : x ≤ k) : n ≤ k :=
  takes_mono h (takes_intCast.mpr rfl) hk

/-- No mode goes down past an integer. -/
theorem le_takes {n k : Int} (h : mode.Takes x n) (hk : (k : ℚ) ≤ x) : k ≤ n :=
  takes_mono (takes_intCast.mpr rfl) h hk

end RoundingMode

namespace Decimal

open RoundingMode (takes_mono takes_le le_takes takes_intCast)

/-! ## Quotients -/

section Quotient

variable {a a' b q q' : Decimal} {scale : Int} {mode : RoundingMode}

theorem takes_of_divideToScale (hb : b.value ≠ 0) (h : a.divideToScale b scale mode = .ok q) :
    q.scale = scale ∧ mode.Takes (a.value / b.value * 10 ^ scale) q.magnitude := by
  have hne : a.divideToScale b scale mode ≠ .error .scaleOverflow := by simp [h]
  exact (divideToScale_eq_ok_iff (value_eq_zero_iff.not.mp hb) (nonneg_of_divideToScale h) hne).mp h

theorem value_le_of_magnitude_le (hs : q.scale = q'.scale) (h : q.magnitude ≤ q'.magnitude) :
    q.value ≤ q'.value := by
  rw [value, value, hs]
  exact mul_le_mul_of_nonneg_right (Int.cast_le.mpr h) (ten_zpow_pos _).le

/-- The order of two quotients that are returned is that of the exact ones. -/
theorem divideToScale_mono (hb : b.value ≠ 0) (hq : a.divideToScale b scale mode = .ok q)
    (hq' : a'.divideToScale b scale mode = .ok q') (h : a.value / b.value ≤ a'.value / b.value) :
    q.value ≤ q'.value := by
  obtain ⟨hs, hn⟩ := takes_of_divideToScale hb hq
  obtain ⟨hs', hn'⟩ := takes_of_divideToScale hb hq'
  exact value_le_of_magnitude_le (hs.trans hs'.symm)
    (takes_mono hn hn' (mul_le_mul_of_nonneg_right h (ten_zpow_pos _).le))

end Quotient

/-! ## Digit budgets -/

/-- The exponent of the power of ten next above the size of a decimal. -/
def height (d : Decimal) : Int := d.precision - d.scale

theorem abs_value_lt (d : Decimal) : |d.value| < 10 ^ d.height := by
  rw [abs_value_eq]
  exact mul_ten_zpow_lt _ _

theorem le_abs_value {d : Decimal} (h : d.magnitude ≠ 0) : 10 ^ (d.height - 1) ≤ |d.value| := by
  rw [abs_value_eq]
  exact ten_zpow_le_mul (Int.natAbs_ne_zero.mpr h) _

@[simp] theorem height_neg (d : Decimal) : (-d).height = d.height := by
  rw [height, height, precision, precision, magnitude_neg, Int.natAbs_neg, scale_neg]

theorem height_le {a b : Decimal} (ha : a.magnitude ≠ 0) (h : |a.value| ≤ |b.value|) :
    a.height ≤ b.height := by
  rw [abs_value_eq, abs_value_eq] at h
  exact digitCount_add_le (Int.natAbs_ne_zero.mpr ha) h

/-- The scale at which a decimal fills the budget. -/
def budgetScale (d : Decimal) (context : Context) : Int := context.precision - d.height

theorem lastPlace_eq_neg_budgetScale {d : Decimal} {context : Context}
    (hd : context.precision < d.precision) : d.lastPlace context = -d.budgetScale context := by
  rw [lastPlace, budgetScale, height]
  omega

/-- Rounding takes place at that scale, also where nothing is taken off. -/
theorem takes_of_round {d r : Decimal} {context : Context} (h0 : context.precision ≠ 0)
    (h : d.round context = .ok r) :
    ∃ n : Int, context.mode.Takes (d.value * 10 ^ d.budgetScale context) n ∧
      r.value = n * 10 ^ (-d.budgetScale context) := by
  obtain hd | hd := le_or_gt d.precision context.precision
  · have hs : d.scale ≤ d.budgetScale context := by
      rw [budgetScale, height]
      omega
    rw [round_eq_self (.inr hd)] at h
    obtain rfl := Except.ok.inj h
    refine ⟨d.magnitudeAt (d.budgetScale context), ?_, ?_⟩
    · rw [value_mul_ten_zpow hs, takes_intCast]
    · rw [← value_mul_ten_zpow hs, mul_assoc, ← zpow_add₀ (by decide), add_neg_cancel, zpow_zero,
        mul_one]
  · obtain ⟨-, -, n, hn, hv⟩ := round_spec h0 hd h
    rw [lastPlace_eq_neg_budgetScale hd] at hn hv
    rw [zpow_neg, div_inv_eq_mul] at hn
    exact ⟨n, hn, hv⟩

section Bound

variable {d r : Decimal} {context : Context} {c : ℚ} (h0 : context.precision ≠ 0)
  (h : d.round context = .ok r) (hc : IsExactAt c (d.budgetScale context))

include h0 h hc

/-- A rounding does not go up past a number of its grid. -/
theorem round_le (hd : d.value ≤ c) : r.value ≤ c := by
  obtain ⟨n, hn, hv⟩ := takes_of_round h0 h
  obtain ⟨k, hk⟩ := hc
  have hle := takes_le hn (hk ▸ mul_le_mul_of_nonneg_right hd (ten_zpow_pos _).le)
  rw [hv, zpow_neg, ← div_eq_mul_inv, div_le_iff₀ (ten_zpow_pos _), hk]
  exact Int.cast_le.mpr hle

/-- Nor does it go down past one. -/
theorem le_round (hd : c ≤ d.value) : c ≤ r.value := by
  obtain ⟨n, hn, hv⟩ := takes_of_round h0 h
  obtain ⟨k, hk⟩ := hc
  have hle := le_takes hn (hk ▸ mul_le_mul_of_nonneg_right hd (ten_zpow_pos _).le)
  rw [hv, zpow_neg, ← div_eq_mul_inv, le_div_iff₀ (ten_zpow_pos _), hk]
  exact Int.cast_le.mpr hle

end Bound

section Separation

variable {a b : Decimal} (context : Context) (h0 : context.precision ≠ 0)

include h0

/-- Between positive decimals of different heights, the power of ten next below the larger one is a
number of both grids. -/
theorem exists_between_of_pos (ha : 0 < a.value) (hab : a.value ≤ b.value)
    (hne : a.height ≠ b.height) :
    ∃ c, a.value ≤ c ∧ c ≤ b.value ∧ IsExactAt c (a.budgetScale context) ∧
      IsExactAt c (b.budgetScale context) := by
  have hb := ha.trans_le hab
  have habs : |a.value| ≤ |b.value| := by rwa [abs_of_pos ha, abs_of_pos hb]
  have hlt := lt_of_le_of_ne (height_le (value_eq_zero_iff.not.mp ha.ne') habs) hne
  have hpos : (0 : Int) < context.precision := Int.natCast_pos.mpr (Nat.pos_of_ne_zero h0)
  refine ⟨10 ^ (b.height - 1), ?_, ?_, isExactAt_zpow ?_, isExactAt_zpow ?_⟩
  · calc
      a.value ≤ |a.value| := le_abs_self _
      _ ≤ 10 ^ a.height := a.abs_value_lt.le
      _ ≤ 10 ^ (b.height - 1) := zpow_le_zpow_right₀ (by decide) (by omega)
  · calc
      (10 : ℚ) ^ (b.height - 1) ≤ |b.value| := le_abs_value (value_eq_zero_iff.not.mp hb.ne')
      _ = b.value := abs_of_pos hb
  · rw [budgetScale]
    omega
  · rw [budgetScale]
    omega

/-- So between any two decimals of different heights there is such a number. -/
theorem exists_between (hab : a.value ≤ b.value) (hne : a.height ≠ b.height) :
    ∃ c, a.value ≤ c ∧ c ≤ b.value ∧ IsExactAt c (a.budgetScale context) ∧
      IsExactAt c (b.budgetScale context) := by
  obtain ha | ha := lt_or_ge 0 a.value
  · exact exists_between_of_pos context h0 ha hab hne
  obtain hb | hb := lt_or_ge b.value 0
  · obtain ⟨c, hl, hu, hfb, hfa⟩ := exists_between_of_pos (a := -b) (b := -a) context h0
      (by rwa [value_neg, neg_pos]) (by rwa [value_neg, value_neg, neg_le_neg_iff])
      (by rw [height_neg, height_neg]; exact hne.symm)
    rw [value_neg] at hl hu
    rw [budgetScale, height_neg, ← budgetScale] at hfa hfb
    exact ⟨-c, le_neg.mpr hu, neg_le.mpr hl, hfa.neg, hfb.neg⟩
  · exact ⟨0, ha, hb, isExactAt_zero _, isExactAt_zero _⟩

end Separation

/-- The order of two roundings that are returned is that of the exact values. -/
theorem round_mono {a b r s : Decimal} {context : Context} (h : a.value ≤ b.value)
    (hr : a.round context = .ok r) (hs : b.round context = .ok s) : r.value ≤ s.value := by
  by_cases h0 : context.precision = 0
  · rw [round_eq_self (.inl h0)] at hr hs
    obtain rfl := Except.ok.inj hr
    obtain rfl := Except.ok.inj hs
    exact h
  by_cases hheight : a.height = b.height
  · obtain ⟨m, hm, hvr⟩ := takes_of_round h0 hr
    obtain ⟨n, hn, hvs⟩ := takes_of_round h0 hs
    have hscale : a.budgetScale context = b.budgetScale context := by
      rw [budgetScale, hheight, budgetScale]
    rw [hscale] at hm hvr
    have hle := takes_mono hm hn (mul_le_mul_of_nonneg_right h (ten_zpow_pos _).le)
    rw [hvr, hvs]
    exact mul_le_mul_of_nonneg_right (Int.cast_le.mpr hle) (ten_zpow_pos _).le
  · obtain ⟨c, hac, hcb, hfa, hfb⟩ := exists_between context h0 h hheight
    exact (round_le h0 hr hfa hac).trans (le_round h0 hs hfb hcb)

/-- The larger dividend has the larger quotient at any scale, or the smaller one if the divisor is
negative, and the larger decimal is rounded to the larger one in any context. Any mode may be in
use, and digit counts, scales and signs may differ. -/
theorem rounding_keeps_order {a a' : Decimal} (h : a.value ≤ a'.value) :
    (∀ (b : Decimal) (scale : Int) (mode : RoundingMode) (q q' : Decimal),
      a.divideToScale b scale mode = .ok q → a'.divideToScale b scale mode = .ok q' →
      (0 < b.value → q.value ≤ q'.value) ∧ (b.value < 0 → q'.value ≤ q.value)) ∧
    (∀ (context : Context) (r r' : Decimal), a.round context = .ok r → a'.round context = .ok r' →
      r.value ≤ r'.value) := by
  refine ⟨?_, fun context r r' => round_mono h⟩
  intro b scale mode q q' hq hq'
  constructor
  · intro hb
    exact divideToScale_mono hb.ne' hq hq' (div_le_div_of_nonneg_right h hb.le)
  · intro hb
    exact divideToScale_mono hb.ne hq' hq (div_le_div_of_nonpos_of_le hb.le h)

/-- Only one of the two is rounded, and it carries: `-9.995` goes to `-10.0` beside `-9.99`, and
`99.91` to `100` beside `100`. Quotients on both sides of zero by a negative divisor. -/
theorem rounding_keeps_order_at_carries :
    (∃ r r', round ⟨-9995, 3, by decide⟩ ⟨3, .halfEven⟩ = .ok r ∧
      round ⟨-999, 2, by decide⟩ ⟨3, .halfEven⟩ = .ok r' ∧ r.value ≤ r'.value) ∧
    (∃ r r', round ⟨9991, 2, by decide⟩ ⟨3, .up⟩ = .ok r ∧
      round ⟨1, -2, by decide⟩ ⟨3, .up⟩ = .ok r' ∧ r.value ≤ r'.value) ∧
    (∃ q q', divideToScale ⟨-7, 0, by decide⟩ ⟨-2, 0, by decide⟩ 0 .halfDown = .ok q ∧
      divideToScale ⟨5, 1, by decide⟩ ⟨-2, 0, by decide⟩ 0 .halfDown = .ok q' ∧
      q'.value ≤ q.value) := by
  have hcarry : value ⟨-9995, 3, by decide⟩ ≤ value ⟨-999, 2, by decide⟩ := by
    rw [← not_lt, value_lt_iff (s := 3) (by decide) (by decide)]
    decide
  have hpower : value ⟨9991, 2, by decide⟩ ≤ value ⟨1, -2, by decide⟩ := by
    rw [← not_lt, value_lt_iff (s := 2) (by decide) (by decide)]
    decide
  have hsigns : value ⟨-7, 0, by decide⟩ ≤ value ⟨5, 1, by decide⟩ := by
    rw [← not_lt, value_lt_iff (s := 1) (by decide) (by decide)]
    decide
  have hb : value ⟨-2, 0, by decide⟩ < 0 := value_neg_iff.mpr (by decide)
  refine ⟨⟨⟨-100, 1, by decide⟩, ⟨-999, 2, by decide⟩, by decide, by decide, ?_⟩,
    ⟨⟨100, 0, by decide⟩, ⟨1, -2, by decide⟩, by decide, by decide, ?_⟩,
    ⟨⟨3, 0, by decide⟩, ⟨0, 0, by decide⟩, by decide, by decide, ?_⟩⟩
  · exact (rounding_keeps_order hcarry).2 ⟨3, .halfEven⟩ _ _ (by decide) (by decide)
  · exact (rounding_keeps_order hpower).2 ⟨3, .up⟩ _ _ (by decide) (by decide)
  · exact ((rounding_keeps_order hsigns).1 ⟨-2, 0, by decide⟩ 0 .halfDown _ _ (by decide)
      (by decide)).2 hb

end Decimal

end ExactDecimal
