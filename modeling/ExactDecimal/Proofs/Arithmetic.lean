import ExactDecimal.Operation
import ExactDecimal.Proofs.Value
/-!
The laws of exact arithmetic. A decimal is determined by its scale and its value, so a law of the
rationals holds of decimals, as an equality of both parts, where the two sides have one scale. A
sum has the larger of two scales and a product their sum, and `max` and `+` on the scales obey the
laws that this takes. Only products can fail, and only for their scale.
-/
namespace ExactDecimal.Decimal

theorem eq_of_value_eq {a b : Decimal} (hs : a.scale = b.scale) (hv : a.value = b.value) :
    a = b := by
  rw [value_eq_iff le_rfl hs.ge, magnitudeAt_self, hs, magnitudeAt_self] at hv
  cases a
  cases b
  cases hs
  cases hv
  rfl

/-! ## Sums -/

protected theorem add_comm (a b : Decimal) : a + b = b + a := by
  apply eq_of_value_eq
  · rw [scale_add, scale_add, Int.max_comm]
  · rw [value_add, value_add, add_comm]

protected theorem add_assoc (a b c : Decimal) : a + b + c = a + (b + c) := by
  apply eq_of_value_eq
  · simp only [scale_add, Int.max_assoc]
  · simp only [value_add, add_assoc]

/-! ## Products -/

theorem mul?_eq_ok_iff {a b p : Decimal} :
    a.mul? b = .ok p ↔ p.magnitude = a.magnitude * b.magnitude ∧ p.scale = a.scale + b.scale :=
  ofParts_eq_ok_iff

theorem scale_of_mul? {a b p : Decimal} (h : a.mul? b = .ok p) : p.scale = a.scale + b.scale :=
  (mul?_eq_ok_iff.mp h).2

theorem value_of_mul? {a b p : Decimal} (h : a.mul? b = .ok p) : p.value = a.value * b.value := by
  obtain ⟨hm, hs⟩ := mul?_eq_ok_iff.mp h
  rw [value, value, value, hm, hs, neg_add, zpow_add₀ (by decide), Int.cast_mul, mul_mul_mul_comm]

/-- A product is recognised by its scale and its value. -/
theorem mul?_eq_ok_of_value {a b p : Decimal} (hs : p.scale = a.scale + b.scale)
    (hv : p.value = a.value * b.value) : a.mul? b = .ok p := by
  have hfits : ScaleFits (a.scale + b.scale) := hs ▸ p.scale_fits
  have hq : a.mul? b = .ok ⟨_, _, hfits⟩ := ofParts_of_fits hfits _
  rw [hq, eq_of_value_eq hs (hv.trans (value_of_mul? hq).symm)]

theorem exists_mul?_iff {a b : Decimal} :
    (∃ p, a.mul? b = .ok p) ↔ ScaleFits (a.scale + b.scale) := by
  constructor
  · rintro ⟨p, h⟩
    exact scale_of_mul? h ▸ p.scale_fits
  · intro h
    exact ⟨_, ofParts_of_fits h _⟩

/-- A scale out of range is all that can be wrong. -/
theorem mul?_eq_error_iff {a b : Decimal} {e : ArithmeticError} :
    a.mul? b = .error e ↔ e = .scaleOverflow ∧ ¬ ScaleFits (a.scale + b.scale) :=
  ofParts_eq_error_iff

protected theorem mul?_comm (a b : Decimal) : a.mul? b = b.mul? a := by
  rw [mul?, mul?, Int.mul_comm, Int.add_comm]

/-- The two ways to group a product of three end in the same decimal. -/
theorem mul?_assoc {a b c ab bc l r : Decimal} (hab : a.mul? b = .ok ab) (hbc : b.mul? c = .ok bc)
    (hl : ab.mul? c = .ok l) (hr : a.mul? bc = .ok r) : l = r := by
  apply eq_of_value_eq
  · rw [scale_of_mul? hl, scale_of_mul? hab, scale_of_mul? hr, scale_of_mul? hbc, Int.add_assoc]
  · rw [value_of_mul? hl, value_of_mul? hab, value_of_mul? hr, value_of_mul? hbc, mul_assoc]

/-- The larger scale of `b` and `c` is one of the two, so the product with their sum exists if the
products with both do. -/
theorem mul?_add {a b c ab ac : Decimal} (hab : a.mul? b = .ok ab) (hac : a.mul? c = .ok ac) :
    a.mul? (b + c) = .ok (ab + ac) := by
  apply mul?_eq_ok_of_value
  · rw [scale_add, scale_add, scale_of_mul? hab, scale_of_mul? hac]
    omega
  · rw [value_add, value_add, value_of_mul? hab, value_of_mul? hac, mul_add]

/-- The operator succeeds with the function, and fails with a failure of its own. -/
theorem run_mul_eq_error_iff {a b : Decimal} {failure : Failure} :
    Binary.mul.run a b = .error failure ↔
      failure = .product .scaleOverflow ∧ ¬ ScaleFits (a.scale + b.scale) := by
  change (a.mul? b).mapError .product = .error failure ↔ _
  simp only [mapError_eq_error_iff, mul?_eq_error_iff]
  constructor
  · rintro ⟨cause, ⟨rfl, hs⟩, rfl⟩
    exact ⟨rfl, hs⟩
  · rintro ⟨rfl, hs⟩
    exact ⟨.scaleOverflow, ⟨rfl, hs⟩, rfl⟩

/-- Sums and differences always exist and are exact, at the larger scale. A product is exact at
the sum of the scales, and fails, as a function and as an operator, if and only if that sum is no
scale. The laws of a commutative ring hold of both parts of the results: of sums always, and of
products wherever they exist. Over a sum a product needs no more than the two products into which
it is distributed. -/
theorem exact_arithmetic_laws (a b c : Decimal) :
    ((a + b).value = a.value + b.value ∧ (a + b).scale = Max.max a.scale b.scale) ∧
    ((a - b).value = a.value - b.value ∧ (a - b).scale = Max.max a.scale b.scale) ∧
    ((∃ p, a.mul? b = .ok p) ↔ ScaleFits (a.scale + b.scale)) ∧
    (∀ p, a.mul? b = .ok p → p.value = a.value * b.value ∧ p.scale = a.scale + b.scale) ∧
    (∀ p, Binary.mul.run a b = .ok p ↔ a.mul? b = .ok p) ∧
    (∀ e, a.mul? b = .error e ↔ e = .scaleOverflow ∧ ¬ ScaleFits (a.scale + b.scale)) ∧
    (∀ failure, Binary.mul.run a b = .error failure ↔
      failure = .product .scaleOverflow ∧ ¬ ScaleFits (a.scale + b.scale)) ∧
    a + b = b + a ∧
    a + b + c = a + (b + c) ∧
    a.mul? b = b.mul? a ∧
    (∀ ab bc l r, a.mul? b = .ok ab → b.mul? c = .ok bc → ab.mul? c = .ok l → a.mul? bc = .ok r →
      l = r) ∧
    (∀ ab ac, a.mul? b = .ok ab → a.mul? c = .ok ac → a.mul? (b + c) = .ok (ab + ac)) := by
  refine ⟨⟨value_add a b, scale_add a b⟩, ⟨value_sub a b, scale_sub a b⟩, exists_mul?_iff, ?_,
    fun _ => mapError_eq_ok_iff, fun _ => mul?_eq_error_iff, fun _ => run_mul_eq_error_iff,
    a.add_comm b, a.add_assoc b c, a.mul?_comm b, ?_, ?_⟩
  · intro p h
    exact ⟨value_of_mul? h, scale_of_mul? h⟩
  · intro ab bc l r
    exact mul?_assoc
  · intro ab ac
    exact mul?_add

/-- Scales of both signs: `-1.5`, `2000` and `0.07`. -/
theorem exact_arithmetic_laws_across_scales :
    (∃ l, mul? ⟨-30, -2, by decide⟩ ⟨7, 2, by decide⟩ = .ok l ∧
      mul? ⟨-15, 1, by decide⟩ ⟨14, -1, by decide⟩ = .ok l) ∧
    mul? ⟨-15, 1, by decide⟩ (⟨2, -3, by decide⟩ + ⟨7, 2, by decide⟩) =
      .ok (⟨-30, -2, by decide⟩ + ⟨-105, 3, by decide⟩) := by
  obtain ⟨-, -, -, -, -, -, -, -, -, -, hassoc, hdistrib⟩ :=
    exact_arithmetic_laws ⟨-15, 1, by decide⟩ ⟨2, -3, by decide⟩ ⟨7, 2, by decide⟩
  have hl := hassoc ⟨-30, -2, by decide⟩ ⟨14, -1, by decide⟩ ⟨-210, 0, by decide⟩ _ rfl rfl rfl rfl
  exact ⟨⟨_, rfl, congrArg Except.ok hl.symm⟩, hdistrib _ _ rfl rfl⟩

end ExactDecimal.Decimal
