import ExactDecimal.Proofs.Arithmetic
import ExactDecimal.Proofs.Comparison
import ExactDecimal.Proofs.Quotient
/-!
Decimals of equal value cannot be told apart by any operation, up to the scale at which a result is
given. Where an operation works on digits, as rounding to a digit budget does, what connects two
scales is that the first digit of a value stands at one place: digit count and scale grow together.
An overflow is the one thing that is not a matter of value.
-/
namespace ExactDecimal.Decimal

variable {a b : Decimal}

theorem magnitude_eq_zero_congr (h : a.value = b.value) : a.magnitude = 0 ↔ b.magnitude = 0 := by
  rw [← value_eq_zero_iff, h, value_eq_zero_iff]

/-! ## Other scales -/

/-- Every scale from its own upward is one at which a decimal can be written. -/
theorem exists_of_scale_le (d : Decimal) {scale : Int} (h : d.scale ≤ scale)
    (hs : ScaleFits scale) : ∃ e : Decimal, e.scale = scale ∧ e.value = d.value := by
  refine ⟨⟨d.magnitudeAt scale, scale, hs⟩, rfl, ?_⟩
  rw [value_eq_iff le_rfl h, magnitudeAt_self]

theorem magnitude_of_value_eq (h : a.value = b.value) (hs : a.scale ≤ b.scale) :
    b.magnitude = a.magnitude * pow10 (b.scale - a.scale).toNat := by
  rw [value_eq_iff hs le_rfl, magnitudeAt_self] at h
  exact h.symm

theorem precision_of_scale_le (h : a.value = b.value) (hs : a.scale ≤ b.scale)
    (ha : a.magnitude ≠ 0) : b.precision = a.precision + (b.scale - a.scale).toNat := by
  rw [precision, magnitude_of_value_eq h hs, Int.natAbs_mul, Int.natAbs_natCast,
    digitCount_mul_pow10 (Int.natAbs_ne_zero.mpr ha)]
  rfl

/-- The first digit of a value stands at the same place at every scale. -/
theorem precision_sub_scale (h : a.value = b.value) (ha : a.magnitude ≠ 0) :
    (a.precision : Int) - a.scale = b.precision - b.scale := by
  obtain hs | hs := Int.le_total a.scale b.scale
  · have := precision_of_scale_le h hs ha
    omega
  · have := precision_of_scale_le h.symm hs ((magnitude_eq_zero_congr h).not.mp ha)
    omega

/-! ## Moves of the point -/

theorem value_of_shiftPoint {d e : Decimal} {right : Int} (h : d.shiftPoint right = .ok e) :
    e.value = d.value * 10 ^ right := by
  have hpow : (10 : ℚ) ^ (-d.scale) * 10 ^ right = 10 ^ (-(d.scale - right)) := by
    rw [← zpow_add₀ (by decide)]
    congr 1
    omega
  obtain ⟨-, hm, hs⟩ | ⟨-, hs, rfl⟩ := shiftPoint_cases h
  · rw [value, value, hm, hs, mul_assoc, hpow]
  · rw [value_ofInt, Int.cast_mul, Int.cast_natCast, cast_pow10_toNat (by omega), value, mul_assoc,
      hpow, neg_sub]

theorem shiftPoint_congr (h : a.value = b.value) {right : Int} {d e : Decimal}
    (hd : a.shiftPoint right = .ok d) (he : b.shiftPoint right = .ok e) : d.value = e.value := by
  rw [value_of_shiftPoint hd, value_of_shiftPoint he, h]

/-! ## Division -/

section Division

variable {a' b' : Decimal} (ha : a.value = a'.value) (hb : b.value = b'.value)

include ha hb

theorem quotientAt_congr {scale : Int} {mode : RoundingMode}
    (h : a.quotientAt b scale mode ≠ .error .scaleOverflow)
    (h' : a'.quotientAt b' scale mode ≠ .error .scaleOverflow) :
    a.quotientAt b scale mode = a'.quotientAt b' scale mode := by
  by_cases hza : a.magnitude = 0
  · rw [quotientAt_of_zero hza, quotientAt_of_zero ((magnitude_eq_zero_congr ha).mp hza)]
  have hza' := (magnitude_eq_zero_congr ha).not.mp hza
  by_cases hzb : b.magnitude = 0
  · rw [quotientAt_by_zero hza hzb, quotientAt_by_zero hza' ((magnitude_eq_zero_congr hb).mp hzb)]
  have hzb' := (magnitude_eq_zero_congr hb).not.mp hzb
  rw [quotientAt_of_shift_lt hza hzb (shiftFor_lt_of_quotientAt hza hzb h),
    quotientAt_of_shift_lt hza' hzb' (shiftFor_lt_of_quotientAt hza' hzb' h')]
  apply mode.roundQuotient_congr (mul_ne_zero hzb (natCast_pow10_ne_zero _))
    (mul_ne_zero hzb' (natCast_pow10_ne_zero _))
  rw [cast_shifted_quotient, cast_shifted_quotient, ha, hb]

theorem divideToScale_congr {scale : Int} {mode : RoundingMode}
    (h : a.divideToScale b scale mode ≠ .error .scaleOverflow)
    (h' : a'.divideToScale b' scale mode ≠ .error .scaleOverflow) :
    a.divideToScale b scale mode = a'.divideToScale b' scale mode := by
  by_cases hs : scale < 0
  · rw [divideToScale_of_neg a b hs, divideToScale_of_neg a' b' hs]
  · rw [divideToScale_of_nonneg _ _ (by omega)] at h h' ⊢
    rw [divideToScale_of_nonneg _ _ (by omega),
      quotientAt_congr ha hb (ne_error_of_bind h) (ne_error_of_bind h')]

end Division

/-- No two scales are too far apart for a division by one. -/
theorem quotientAt_one_ne_overflow (d : Decimal) {scale : Int} (h0 : 0 ≤ scale)
    (hs : ScaleFits scale) (mode : RoundingMode) :
    d.quotientAt one scale mode ≠ .error .scaleOverflow := by
  intro h
  by_cases hz : d.magnitude = 0
  · rw [quotientAt_of_zero hz] at h
    exact nomatch h
  · have hshift : d.shiftFor one scale = scale - d.scale := Int.add_zero _
    have hd := d.scale_fits
    rw [quotientAt_of_shift_lt hz (by decide) (by omega)] at h
    exact nomatch RoundingMode.roundQuotient_eq_error h

theorem withScaleRound_ne_overflow (d : Decimal) {scale : Int} (hs : ScaleFits scale)
    (mode : RoundingMode) : d.withScaleRound scale mode ≠ .error .scaleOverflow := by
  intro h
  rw [withScaleRound] at h
  by_cases h0 : scale < 0
  · rw [divideToScale_of_neg _ _ h0] at h
    exact nomatch h
  · rw [divideToScale_of_nonneg _ _ (by omega)] at h
    obtain h | ⟨q, -, h⟩ := bind_eq_error h
    · exact quotientAt_one_ne_overflow d (by omega) hs mode h
    · rw [ofParts_of_fits hs] at h
      exact nomatch h

theorem withScaleRound_congr (h : a.value = b.value) {scale : Int} (hs : ScaleFits scale)
    (mode : RoundingMode) : a.withScaleRound scale mode = b.withScaleRound scale mode :=
  divideToScale_congr h rfl (withScaleRound_ne_overflow a hs mode)
    (withScaleRound_ne_overflow b hs mode)

/-! ## Rounding to a digit budget -/

/-- What dropping digits gives depends on the value and on the scale that is left. -/
theorem dropDigits_congr (h : a.value = b.value) {j k : Nat} (hj : j < 4294967296)
    (hk : k < 4294967296) (hs : a.scale - j = b.scale - k) (mode : RoundingMode) :
    a.dropDigits j mode = b.dropDigits k mode := by
  have hq : mode.roundQuotient a.magnitude (pow10 j) = mode.roundQuotient b.magnitude (pow10 k) := by
    apply mode.roundQuotient_congr (natCast_pow10_ne_zero j) (natCast_pow10_ne_zero k)
    rw [cast_dropped_quotient, cast_dropped_quotient, h, hs]
  rw [dropDigits_of_lt a hj, dropDigits_of_lt b hk, hq, hs]

@[simp] theorem dropDigits_zero (d : Decimal) (mode : RoundingMode) :
    d.dropDigits 0 mode = .ok d := by
  rw [dropDigits_of_lt d (by decide)]
  simp [RoundingMode.roundQuotient_exact]

/-- Nothing is lost if the value can be written at the scale that is left. -/
theorem dropDigits_exact {d e : Decimal} (h : e.value = d.value) {chop : Nat}
    (hc : chop < 4294967296) (hs : e.scale = d.scale - chop) (mode : RoundingMode) :
    d.dropDigits chop mode = .ok e := by
  rw [dropDigits_congr h.symm hc (k := 0) (by decide) (by omega), dropDigits_zero]

theorem precision_of_zero {d : Decimal} (h : d.magnitude = 0) : d.precision = 1 := by
  rw [precision, h]
  rfl

/-- A value that can be written within the limit only loses zeros. -/
theorem round_exact (h : a.value = b.value) (hz : a.magnitude ≠ 0) {context : Context}
    (h0 : context.precision ≠ 0) (ha : a.precision ≤ context.precision)
    (hb : context.precision < b.precision) (hne : b.round context ≠ .error .scaleOverflow) :
    ∃ e, b.round context = .ok e ∧ e.value = b.value := by
  rw [round_of_lt h0 hb] at hne ⊢
  have hp := precision_sub_scale h hz
  have hc := chop_lt_of_dropDigits (ne_error_of_bind hne)
  have hfits : ScaleFits (b.scale - (b.precision - context.precision : Nat)) := by
    have := a.scale_fits
    have := b.scale_fits
    omega
  obtain ⟨e, hs, hv⟩ := exists_of_scale_le a (by omega) hfits
  have hpe := precision_sub_scale hv.symm hz
  refine ⟨e, ?_, hv.trans h⟩
  rw [dropDigits_exact (hv.trans h) hc hs, ok_bind, if_pos (by omega)]

/-- Beyond the limit the digits that are kept end at one place, so the cut is the same one. -/
theorem round_congr_of_lt (h : a.value = b.value) (hz : a.magnitude ≠ 0) {context : Context}
    (h0 : context.precision ≠ 0) (ha : context.precision < a.precision)
    (hb : context.precision < b.precision) (hna : a.round context ≠ .error .scaleOverflow)
    (hnb : b.round context ≠ .error .scaleOverflow) : a.round context = b.round context := by
  rw [round_of_lt h0 ha] at hna ⊢
  rw [round_of_lt h0 hb] at hnb ⊢
  have hp := precision_sub_scale h hz
  rw [dropDigits_congr h (chop_lt_of_dropDigits (ne_error_of_bind hna))
    (chop_lt_of_dropDigits (ne_error_of_bind hnb)) (by omega)]

theorem round_congr (h : a.value = b.value) {context : Context}
    (ha : a.round context ≠ .error .scaleOverflow) (hb : b.round context ≠ .error .scaleOverflow) :
    (a.round context).map value = (b.round context).map value := by
  by_cases h0 : context.precision = 0
  · rw [round_eq_self (.inl h0), round_eq_self (.inl h0)]
    exact congrArg Except.ok h
  by_cases hz : a.magnitude = 0
  · have hpa := precision_of_zero hz
    have hpb := precision_of_zero ((magnitude_eq_zero_congr h).mp hz)
    rw [round_eq_self (.inr (by omega)), round_eq_self (.inr (by omega))]
    exact congrArg Except.ok h
  have hzb := (magnitude_eq_zero_congr h).not.mp hz
  by_cases hpa : a.precision ≤ context.precision
  · rw [round_eq_self (.inr hpa)]
    by_cases hpb : b.precision ≤ context.precision
    · rw [round_eq_self (.inr hpb)]
      exact congrArg Except.ok h
    · obtain ⟨e, he, hv⟩ := round_exact h hz h0 hpa (by omega) hb
      rw [he]
      exact congrArg Except.ok (h.trans hv.symm)
  · by_cases hpb : b.precision ≤ context.precision
    · rw [round_eq_self (.inr hpb)]
      obtain ⟨e, he, hv⟩ := round_exact h.symm hzb h0 hpb (by omega) ha
      rw [he]
      exact congrArg Except.ok (hv.trans h)
    · rw [round_congr_of_lt h hz h0 (by omega) (by omega) ha hb]

/-! ## All operations -/

/-- Operands of equal values give results of equal values. Where the scale of a result is asked
for, and for comparisons and integers, the results are the same, and so are the failures, except
that a scale may overflow for one way of writing a value and not for another. -/
theorem operations_respect_value {a a' b b' : Decimal} (ha : a.value = a'.value)
    (hb : b.value = b'.value) :
    (a + b).value = (a' + b').value ∧
    (a - b).value = (a' - b').value ∧
    (∀ p p', a.mul? b = .ok p → a'.mul? b' = .ok p' → p.value = p'.value) ∧
    (∀ n d d', a.movePointLeft n = .ok d → a'.movePointLeft n = .ok d' → d.value = d'.value) ∧
    (∀ n d d', a.movePointRight n = .ok d → a'.movePointRight n = .ok d' → d.value = d'.value) ∧
    a.numericCompare b = a'.numericCompare b' ∧
    a.truncate = a'.truncate ∧
    (∀ scale mode, a.divideToScale b scale mode ≠ .error .scaleOverflow →
      a'.divideToScale b' scale mode ≠ .error .scaleOverflow →
      a.divideToScale b scale mode = a'.divideToScale b' scale mode) ∧
    (∀ scale mode, ScaleFits scale →
      a.withScaleRound scale mode = a'.withScaleRound scale mode) ∧
    (∀ context d d', a.round context = .ok d → a'.round context = .ok d' → d.value = d'.value) ∧
    (∀ context, a.round context ≠ .error .scaleOverflow →
      a'.round context ≠ .error .scaleOverflow →
      (a.round context = .error .roundingNecessary ↔
        a'.round context = .error .roundingNecessary)) := by
  refine ⟨?_, ?_, ?_, fun _ _ _ => shiftPoint_congr ha, fun _ _ _ => shiftPoint_congr ha, ?_, ?_,
    fun _ _ => divideToScale_congr ha hb, fun _ mode hs => withScaleRound_congr ha hs mode, ?_, ?_⟩
  · rw [value_add, value_add, ha, hb]
  · rw [value_sub, value_sub, ha, hb]
  · intro p p' hp hp'
    rw [value_of_mul? hp, value_of_mul? hp', ha, hb]
  · rw [numericCompare_eq, numericCompare_eq, ha, hb]
  · rw [truncate_eq, truncate_eq, ha]
  · intro context d d' hd hd'
    have hne : a.round context ≠ .error .scaleOverflow := by simp [hd]
    have hne' : a'.round context ≠ .error .scaleOverflow := by simp [hd']
    have h := round_congr ha hne hne'
    rw [hd, hd'] at h
    exact Except.ok.inj h
  · intro context hr hr'
    rw [← map_eq_error_iff (f := value), round_congr ha hr hr', map_eq_error_iff]

/-- One and a half at two scales, divided by a negative number at two scales and rounded to one
digit: the cut at scale one drops one digit and the cut at scale three drops three. -/
theorem operations_respect_value_of_samples :
    (divideToScale ⟨15, 1, by decide⟩ ⟨-2, -1, by decide⟩ 2 .halfEven =
      divideToScale ⟨1500, 3, by decide⟩ ⟨-200, 1, by decide⟩ 2 .halfEven) ∧
    (∀ d d', round ⟨15, 1, by decide⟩ ⟨1, .halfEven⟩ = .ok d →
      round ⟨1500, 3, by decide⟩ ⟨1, .halfEven⟩ = .ok d' → d.value = d'.value) ∧
    ((⟨15, 1, by decide⟩ : Decimal).round ⟨1, .unnecessary⟩ = .error .roundingNecessary ↔
      (⟨1500, 3, by decide⟩ : Decimal).round ⟨1, .unnecessary⟩ = .error .roundingNecessary) := by
  have ha : (⟨15, 1, by decide⟩ : Decimal).value = (⟨1500, 3, by decide⟩ : Decimal).value := by
    rw [value_eq_iff (s := 3) (by decide) (by decide)]
    decide
  have hb : (⟨-2, -1, by decide⟩ : Decimal).value = (⟨-200, 1, by decide⟩ : Decimal).value := by
    rw [value_eq_iff (s := 1) (by decide) (by decide)]
    decide
  obtain ⟨-, -, -, -, -, -, -, hdivide, -, hround, hnecessary⟩ := operations_respect_value ha hb
  refine ⟨hdivide _ _ ?_ ?_, hround _, hnecessary _ ?_ ?_⟩
  · decide
  · decide
  · decide
  · decide

end ExactDecimal.Decimal
