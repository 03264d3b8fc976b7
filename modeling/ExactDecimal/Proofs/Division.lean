import ExactDecimal.Proofs.Congruence
import ExactDecimal.Proofs.Modes
/-!
Division is correctly rounded: the magnitude of a quotient at a scale is the integer that the mode
takes for the exact quotient in units of the last place. Whether the dividend is multiplied up for
that scale, or the divisor, and what their signs are, makes no difference.

There are four reasons for a division to have no result, and they are looked at in a fixed order: a
scale below zero, a divisor of zero, scales too far apart, and a rest that the mode refuses. A
dividend of zero comes before all but the first of them. Scales can be too far apart in one
direction only, for a divisor is never multiplied up by more than a scale can be long.
-/
namespace ExactDecimal

namespace Decimal

section Rounded

open RoundingMode (roundQuotient_eq_ok_iff takes_intCast takes_unique)

variable {a b q : Decimal} {scale : Int} {mode : RoundingMode}

theorem quotientAt_eq_ok_iff (hb : b.magnitude ≠ 0)
    (h : a.quotientAt b scale mode ≠ .error .scaleOverflow) {n : Int} :
    a.quotientAt b scale mode = .ok n ↔ mode.Takes (a.value / b.value * 10 ^ scale) n := by
  by_cases ha : a.magnitude = 0
  · have hx : a.value / b.value * 10 ^ scale = (0 : Int) := by
      rw [value_eq_zero_iff.mpr ha, zero_div, zero_mul, Int.cast_zero]
    rw [quotientAt_of_zero ha, hx, takes_intCast, Except.ok.injEq, eq_comm]
  · rw [quotientAt_of_shift_lt ha hb (shiftFor_lt_of_quotientAt ha hb h),
      roundQuotient_eq_ok_iff (mul_ne_zero hb (natCast_pow10_ne_zero _)), cast_shifted_quotient]

/-- What a division returns, where no scale overflows. -/
theorem divideToScale_eq_ok_iff (hb : b.magnitude ≠ 0) (h0 : 0 ≤ scale)
    (h : a.divideToScale b scale mode ≠ .error .scaleOverflow) :
    a.divideToScale b scale mode = .ok q ↔
      q.scale = scale ∧ mode.Takes (a.value / b.value * 10 ^ scale) q.magnitude := by
  rw [divideToScale_of_nonneg _ _ h0] at h ⊢
  rw [← quotientAt_eq_ok_iff hb (ne_error_of_bind h)]
  constructor
  · intro hq
    obtain ⟨n, hn, hq⟩ := bind_eq_ok hq
    obtain ⟨rfl, hs⟩ := ofParts_eq_ok_iff.mp hq
    exact ⟨hs, hn⟩
  · rintro ⟨rfl, hn⟩
    rw [hn, ok_bind, ofParts_self]

/-- A quotient that is returned has the scale that was asked for, and is the one integer to which
the mode takes the exact quotient in units of that scale: this quotient itself if it is an
integer. -/
theorem divideToScale_correctly_rounded (hb : b.value ≠ 0)
    (h : a.divideToScale b scale mode = .ok q) :
    q.scale = scale ∧
    (∀ n, mode.Takes (a.value / b.value * 10 ^ scale) n ↔ n = q.magnitude) ∧
    (∀ n : Int, a.value / b.value * 10 ^ scale = n → q.magnitude = n) := by
  have h0 := nonneg_of_divideToScale h
  have hne : a.divideToScale b scale mode ≠ .error .scaleOverflow := by simp [h]
  obtain ⟨hs, hq⟩ := (divideToScale_eq_ok_iff (value_eq_zero_iff.not.mp hb) h0 hne).mp h
  refine ⟨hs, fun n => ⟨fun hn => takes_unique hn hq, ?_⟩, ?_⟩
  · rintro rfl
    exact hq
  · intro n hn
    rwa [hn, takes_intCast] at hq

/-- The divisor is multiplied up for `-1.2345 / 2`, and `-1 / 300` is cut off to zero first. -/
theorem divideToScale_correctly_rounded_below_zero :
    (divideToScale ⟨-12345, 4, by decide⟩ ⟨2, 0, by decide⟩ 1 .floor =
        .ok ⟨-7, 1, by decide⟩ ∧
      ∀ n, RoundingMode.floor.Takes
        (value ⟨-12345, 4, by decide⟩ / value ⟨2, 0, by decide⟩ * 10 ^ (1 : Int)) n ↔ n = -7) ∧
    (divideToScale ⟨-1, 0, by decide⟩ ⟨3, -2, by decide⟩ 0 .up = .ok ⟨-1, 0, by decide⟩ ∧
      ∀ n, RoundingMode.up.Takes
        (value ⟨-1, 0, by decide⟩ / value ⟨3, -2, by decide⟩ * 10 ^ (0 : Int)) n ↔ n = -1) := by
  have hb : value ⟨2, 0, by decide⟩ ≠ 0 := value_eq_zero_iff.not.mpr (by decide)
  have hd : value ⟨3, -2, by decide⟩ ≠ 0 := value_eq_zero_iff.not.mpr (by decide)
  have hq : divideToScale ⟨-12345, 4, by decide⟩ ⟨2, 0, by decide⟩ 1 .floor =
      .ok ⟨-7, 1, by decide⟩ := by decide
  have hr : divideToScale ⟨-1, 0, by decide⟩ ⟨3, -2, by decide⟩ 0 .up =
      .ok ⟨-1, 0, by decide⟩ := by decide
  exact ⟨⟨hq, (divideToScale_correctly_rounded hb hq).2.1⟩,
    ⟨hr, (divideToScale_correctly_rounded hd hr).2.1⟩⟩

end Rounded

/-! ## Refusals -/

open RoundingMode (roundQuotient_eq_error_iff)

/-- Why the quotient of `a` and `b` at `scale` is refused. -/
inductive Refusal (a b : Decimal) (scale : Int) (mode : RoundingMode) : ArithmeticError → Prop where
  | negativeScale (h : scale < 0) : Refusal a b scale mode (.negativeScale scale)
  | divisionByZero (h : 0 ≤ scale) (ha : a.value ≠ 0) (hb : b.value = 0) :
    Refusal a b scale mode .divisionByZero
  | scaleOverflow (h : 0 ≤ scale) (ha : a.value ≠ 0) (hb : b.value ≠ 0)
    (hs : 4294967295 < scale - a.scale + b.scale) : Refusal a b scale mode .scaleOverflow
  | roundingNecessary (h : 0 ≤ scale) (ha : a.value ≠ 0) (hb : b.value ≠ 0)
    (hs : scale - a.scale + b.scale ≤ 4294967295) (hm : mode = .unnecessary)
    (hx : ¬ IsExactAt (a.value / b.value) scale) :
    Refusal a b scale mode .roundingNecessary

variable {a b : Decimal} {scale : Int}

/-! ## Quotients at a scale -/

/-- With a scale that fits, nothing can go wrong once there is a magnitude. -/
theorem divideToScale_of_fits (h0 : 0 ≤ scale) (hs : ScaleFits scale) (mode : RoundingMode) :
    a.divideToScale b scale mode = (a.quotientAt b scale mode).map (⟨·, scale, hs⟩) := by
  rw [divideToScale_of_nonneg a b h0]
  cases a.quotientAt b scale mode with
  | error e => rfl
  | ok n => exact ofParts_of_fits hs n

/-- A divisor is multiplied up by less than the least power that is refused. -/
theorem neg_lt_shiftFor (a b : Decimal) (h0 : 0 ≤ scale) : -4294967296 < a.shiftFor b scale := by
  have ha := a.scale_fits
  have hb := b.scale_fits
  rw [shiftFor]
  omega

theorem quotientAt_of_shift_le (ha : a.magnitude ≠ 0) (hb : b.magnitude ≠ 0) (h0 : 0 ≤ scale)
    (h : a.shiftFor b scale ≤ 4294967295) (mode : RoundingMode) :
    a.quotientAt b scale mode = mode.roundQuotient
      (a.magnitude * pow10 (a.shiftFor b scale).toNat)
      (b.magnitude * pow10 (-a.shiftFor b scale).toNat) := by
  have hlower := neg_lt_shiftFor a b h0
  exact quotientAt_of_shift_lt ha hb (by omega) mode

/-- Whichever operand is multiplied up, a rest is left if and only if the exact quotient has one. -/
theorem roundQuotient_shifted_eq_error_iff (hb : b.magnitude ≠ 0) {mode : RoundingMode}
    {e : ArithmeticError} :
    mode.roundQuotient (a.magnitude * pow10 (a.shiftFor b scale).toNat)
        (b.magnitude * pow10 (-a.shiftFor b scale).toNat) = .error e ↔
      e = .roundingNecessary ∧ mode = .unnecessary ∧ ¬ IsExactAt (a.value / b.value) scale := by
  have hd : b.magnitude * (pow10 (-a.shiftFor b scale).toNat : Int) ≠ 0 :=
    mul_ne_zero hb (natCast_pow10_ne_zero _)
  rw [roundQuotient_eq_error_iff hd, dvd_iff_exists_cast_div hd, cast_shifted_quotient]
  rfl

theorem Refusal.divideToScale_eq {mode : RoundingMode} {e : ArithmeticError}
    (h : Refusal a b scale mode e) (hs : ScaleFits scale) :
    a.divideToScale b scale mode = .error e := by
  cases h with
  | negativeScale h => exact divideToScale_of_neg a b h mode
  | divisionByZero h0 ha hb =>
    rw [divideToScale_of_fits h0 hs, quotientAt_by_zero (value_eq_zero_iff.not.mp ha)
      (value_eq_zero_iff.mp hb)]
    rfl
  | scaleOverflow h0 ha hb h =>
    rw [divideToScale_of_fits h0 hs, quotientAt_of_le_shift (value_eq_zero_iff.not.mp ha)
      (value_eq_zero_iff.not.mp hb) (by rw [shiftFor]; omega)]
    rfl
  | roundingNecessary h0 ha hb h hm hx =>
    have hmb := value_eq_zero_iff.not.mp hb
    rw [divideToScale_of_fits h0 hs, quotientAt_of_shift_le (value_eq_zero_iff.not.mp ha) hmb h0 h,
      (roundQuotient_shifted_eq_error_iff hmb).mpr ⟨rfl, hm, hx⟩]
    rfl

theorem refusal_of_divideToScale {mode : RoundingMode} {e : ArithmeticError} (hs : ScaleFits scale)
    (h : a.divideToScale b scale mode = .error e) : Refusal a b scale mode e := by
  obtain hneg | h0 := Int.lt_or_le scale 0
  · rw [divideToScale_of_neg a b hneg] at h
    cases h
    exact .negativeScale hneg
  rw [divideToScale_of_fits h0 hs, map_eq_error_iff] at h
  by_cases ha : a.value = 0
  · rw [quotientAt_of_zero (value_eq_zero_iff.mp ha)] at h
    exact nomatch h
  have hma := value_eq_zero_iff.not.mp ha
  by_cases hb : b.value = 0
  · rw [quotientAt_by_zero hma (value_eq_zero_iff.mp hb)] at h
    cases h
    exact .divisionByZero h0 ha hb
  have hmb := value_eq_zero_iff.not.mp hb
  obtain hshift | hshift := Int.lt_or_le 4294967295 (a.shiftFor b scale)
  · rw [quotientAt_of_le_shift hma hmb (by omega)] at h
    cases h
    exact .scaleOverflow h0 ha hb hshift
  · rw [quotientAt_of_shift_le hma hmb h0 hshift, roundQuotient_shifted_eq_error_iff hmb] at h
    obtain ⟨rfl, hm, hx⟩ := h
    exact .roundingNecessary h0 ha hb hshift hm hx

theorem divideToScale_eq_error_iff (hs : ScaleFits scale) {mode : RoundingMode}
    {e : ArithmeticError} :
    a.divideToScale b scale mode = .error e ↔ Refusal a b scale mode e :=
  ⟨refusal_of_divideToScale hs, fun h => h.divideToScale_eq hs⟩

theorem scale_of_divideToScale {q : Decimal} {mode : RoundingMode}
    (h : a.divideToScale b scale mode = .ok q) : q.scale = scale := by
  rw [divideToScale_of_nonneg a b (nonneg_of_divideToScale h)] at h
  obtain ⟨n, -, h⟩ := bind_eq_ok h
  exact (ofParts_eq_ok_iff.mp h).2

/-- There is a quotient if there is no reason against it. -/
theorem exists_divideToScale_iff (hs : ScaleFits scale) {mode : RoundingMode} :
    (∃ q, a.divideToScale b scale mode = .ok q) ↔ ∀ e, ¬ Refusal a b scale mode e := by
  simp only [← divideToScale_eq_error_iff hs]
  cases a.divideToScale b scale mode with
  | ok q => simp
  | error e => simp

/-! ## Changes of scale -/

theorem value_one : one.value = 1 := by rw [one, value_ofInt, Int.cast_one]

/-- Only the mode can refuse a change of scale. -/
theorem refusal_one_iff {d : Decimal} (h0 : 0 ≤ scale) (hs : ScaleFits scale) {mode : RoundingMode}
    {e : ArithmeticError} : Refusal d one scale mode e ↔
      e = .roundingNecessary ∧ mode = .unnecessary ∧ ¬ IsExactAt d.value scale := by
  have hone : one.value ≠ 0 := value_one ▸ one_ne_zero
  have hscale : one.scale = 0 := rfl
  have hd := d.scale_fits
  constructor
  · intro h
    cases h with
    | negativeScale h => omega
    | divisionByZero => contradiction
    | scaleOverflow _ _ _ h => omega
    | roundingNecessary _ _ _ _ hm hx =>
      rw [value_one, div_one] at hx
      exact ⟨rfl, hm, hx⟩
  · rintro ⟨rfl, hm, hx⟩
    have hz : d.value ≠ 0 := fun hz => hx ⟨0, by rw [hz, zero_mul, Int.cast_zero]⟩
    refine .roundingNecessary h0 hz hone (by omega) hm ?_
    rwa [value_one, div_one]

theorem exists_withScale_iff (d : Decimal) (h0 : 0 ≤ scale) (hs : ScaleFits scale) :
    (∃ q, d.withScale scale = .ok q) ↔ IsExactAt d.value scale := by
  rw [withScale, withScaleRound, exists_divideToScale_iff hs]
  simp only [refusal_one_iff h0 hs, true_and, not_and, forall_eq, not_not]

theorem eq_roundingNecessary_of_withScaleRound {d : Decimal} (h0 : 0 ≤ scale)
    (hs : ScaleFits scale) {mode : RoundingMode} {e : ArithmeticError}
    (h : d.withScaleRound scale mode = .error e) : e = .roundingNecessary :=
  ((refusal_one_iff h0 hs).mp ((divideToScale_eq_error_iff hs).mp h)).1

/-- A division fails for the first of the four reasons that applies, and for no other; it succeeds
if none does, a dividend of zero before its divisor is looked at. A change to a scale of zero or
above can only be refused by the mode, and the mode that loses no digit allows it if and only if
the value is an integer in units of that scale. A division at the scale of its dividend is refused
for its scale if and only if that is negative. -/
theorem divideToScale_fails_by_priority (a b : Decimal) (hs : ScaleFits scale)
    (mode : RoundingMode) :
    (∀ e, a.divideToScale b scale mode = .error e ↔ Refusal a b scale mode e) ∧
    ((∀ e, ¬ Refusal a b scale mode e) →
      ∃ q, a.divideToScale b scale mode = .ok q ∧ q.scale = scale) ∧
    (0 ≤ scale → a.value = 0 → a.divideToScale b scale mode = .ok ⟨0, scale, hs⟩) ∧
    (0 ≤ scale →
      (∀ e, a.withScaleRound scale mode = .error e → e = .roundingNecessary) ∧
      (∀ e, a.withScale scale = .error e → e = .roundingNecessary) ∧
      ((∃ q, a.withScale scale = .ok q) ↔ IsExactAt a.value scale)) ∧
    ((∃ s, a.divide b mode = .error (.negativeScale s)) ↔ a.scale < 0) := by
  refine ⟨fun e => divideToScale_eq_error_iff hs, ?_, ?_, ?_, ?_⟩
  · intro hnone
    obtain ⟨q, hq⟩ := (exists_divideToScale_iff hs).mpr hnone
    exact ⟨q, hq, scale_of_divideToScale hq⟩
  · intro h0 ha
    rw [divideToScale_of_fits h0 hs, quotientAt_of_zero (value_eq_zero_iff.mp ha)]
    rfl
  · intro h0
    exact ⟨fun _ => eq_roundingNecessary_of_withScaleRound h0 hs,
      fun _ => eq_roundingNecessary_of_withScaleRound h0 hs, exists_withScale_iff a h0 hs⟩
  · rw [divide]
    simp only [divideToScale_eq_error_iff a.scale_fits]
    constructor
    · rintro ⟨s, h⟩
      cases h with
      | negativeScale h => exact h
    · intro h
      exact ⟨_, .negativeScale h⟩

/-- Scales that are just too far apart, and just not; zero by zero; and a scale at which only a
zero is taken off. -/
theorem divideToScale_fails_by_priority_at_limits :
    ScaleFits 0 ∧
    divideToScale ⟨1, -2147483648, by decide⟩ ⟨7, 2147483647, by decide⟩ 1 .floor =
      .error .scaleOverflow ∧
    (∃ q, divideToScale ⟨1, -2147483648, by decide⟩ ⟨7, 2147483647, by decide⟩ 0 .floor = .ok q ∧
      q.scale = 0) ∧
    divideToScale ⟨0, 3, by decide⟩ zero 0 .unnecessary = .ok ⟨0, 0, by decide⟩ ∧
    ((∃ q, withScale ⟨1500, 3, by decide⟩ 1 = .ok q) ↔
      IsExactAt (value ⟨1500, 3, by decide⟩) 1) := by
  have hfar : value ⟨1, -2147483648, by decide⟩ ≠ 0 := value_eq_zero_iff.not.mpr (by decide)
  have hseven : value ⟨7, 2147483647, by decide⟩ ≠ 0 := value_eq_zero_iff.not.mpr (by decide)
  refine ⟨by decide, ?_, ?_, ?_, ?_⟩
  · exact ((divideToScale_fails_by_priority _ _ (by decide) _).1 _).mpr
      (.scaleOverflow (by decide) hfar hseven (by decide))
  · refine (divideToScale_fails_by_priority _ _ (by decide) _).2.1 ?_
    intro e he
    cases he with
    | negativeScale h => exact absurd h (by decide)
    | divisionByZero => contradiction
    | scaleOverflow _ _ _ h => exact absurd h (by decide)
    | roundingNecessary _ _ _ _ hm => exact nomatch hm
  · exact (divideToScale_fails_by_priority _ _ (by decide) _).2.2.1 (by decide)
      (value_eq_zero_iff.mpr rfl)
  · exact ((divideToScale_fails_by_priority ⟨1500, 3, by decide⟩ one (by decide)
      .unnecessary).2.2.2.1 (by decide)).2.2

end Decimal

end ExactDecimal
