import ExactDecimal.Proofs.Arithmetic
import ExactDecimal.Proofs.ExactBinary
import Mathlib.Order.Bounds.Basic
/-!
The bit fields of a binary number, and the decimal expansion of what they encode. Sign, exponent and
fraction are read off the bits as the format lays them out, and give the value that the code does.
The expansion is exact, and it has no place too many: a numerator from which all twos are cancelled
is odd, so is any power of five, and an odd magnitude does not end in a zero. So the scale is a
matter of the value, and only the two zeros have one expansion.
-/
namespace ExactDecimal

namespace BinaryFormat

/-! ## Bit fields -/

section Fields

variable {f : BinaryFormat}

/-- What is added to an exponent before it is stored. -/
def bias (f : BinaryFormat) : Nat := 2 ^ (f.exponentBits - 1) - 1

def exponentField (bits : f.Bits) : Nat := (bits.extractLsb' f.fractionBits f.exponentBits).toNat

def fractionField (bits : f.Bits) : Nat := (bits.extractLsb' 0 f.fractionBits).toNat

/-- The fraction, with a leading one before it unless the exponent field is zero. -/
def mantissa (bits : f.Bits) : Nat :=
  if exponentField bits = 0 then fractionField bits else 2 ^ f.fractionBits + fractionField bits

/-- The exponent of the last place of the mantissa. A field of zero stands for the same exponent as
a field of one. -/
def exponent (bits : f.Bits) : Int :=
  (if exponentField bits = 0 then 1 else exponentField bits : Nat) - f.bias - f.fractionBits

/-- The number that the fields encode. -/
def encoded (bits : f.Bits) : ℚ := (-1) ^ bits.msb.toNat * mantissa bits * 2 ^ exponent bits

variable (bits : f.Bits)

theorem fractionField_lt : fractionField bits < pow2 f.fractionBits := BitVec.isLt _

theorem code_eq_fields :
    code bits = exponentField bits * pow2 f.fractionBits + fractionField bits := by
  rw [code, exponentField, fractionField, BitVec.extractLsb'_toNat, BitVec.extractLsb'_toNat,
    codeCount, pow2_add, Nat.mul_comm (pow2 f.exponentBits), Nat.mod_mul, Nat.shiftRight_zero,
    Nat.shiftRight_eq_div_pow, Nat.add_comm, Nat.mul_comm (pow2 f.fractionBits)]
  rfl

theorem isNegative_eq_msb : isNegative bits = bits.msb := by
  rw [isNegative, BitVec.msb_eq_decide]
  rfl

/-- The shift that a field stands for. -/
theorem code_eq_mantissa :
    code bits = (exponentField bits - 1) * pow2 f.fractionBits + mantissa bits := by
  rw [code_eq_fields, mantissa]
  split
  · rename_i h
    rw [h]
  · rename_i h
    obtain ⟨e, he⟩ := Nat.exists_eq_add_one_of_ne_zero h
    rw [he, Nat.add_sub_cancel, Nat.succ_mul, Nat.add_assoc]
    rfl

theorem mantissa_spec : mantissa bits < 2 * pow2 f.fractionBits ∧
    (exponentField bits - 1 = 0 ∨ pow2 f.fractionBits ≤ mantissa bits) := by
  have hlt := fractionField_lt bits
  have hp : 2 ^ f.fractionBits = pow2 f.fractionBits := rfl
  rw [mantissa, hp]
  split <;> omega

theorem units_code :
    f.units (code bits) = mantissa bits * pow2 (exponentField bits - 1) := by
  obtain ⟨hlt, hnormal⟩ := mantissa_spec bits
  rw [code_eq_mantissa, units_add hlt hnormal]

theorem depth_eq (f : BinaryFormat) : f.depth + 1 = f.bias + f.fractionBits := by
  cases f <;> rfl

theorem exponent_eq : exponent bits = (exponentField bits - 1 : Nat) - f.depth := by
  have hdepth := f.depth_eq
  rw [exponent]
  split <;> omega

/-- Fields and code tell the same value. -/
theorem encoded_eq_value : encoded bits = value bits := by
  have hsign : ((-1 : ℚ)) ^ bits.msb.toNat = signed bits.msb 1 := by
    cases bits.msb <;> simp [signed]
  rw [encoded, value, units_code, isNegative_eq_msb, exponent_eq, hsign, zpow_sub₀ (by decide),
    zpow_natCast, zpow_natCast, signed_mul, ← Nat.one_mul (mantissa bits), signed_mul, Nat.one_mul,
    Int.cast_mul, Int.cast_mul, Int.cast_natCast, Int.cast_natCast, cast_pow2, mul_div_assoc]

/-- The largest exponent field is that of no finite number. -/
theorem finite_iff : Finite bits ↔ exponentField bits ≠ 2 ^ f.exponentBits - 1 := by
  have hlt := fractionField_lt bits
  have he : exponentField bits < 2 ^ f.exponentBits := BitVec.isLt _
  have hfield : code bits / pow2 f.fractionBits = exponentField bits := by
    rw [code_eq_fields, Nat.mul_comm, Nat.mul_add_div (pow2_pos _), Nat.div_eq_of_lt hlt, Nat.add_zero]
  rw [Finite, infinity, ← Nat.div_lt_iff_lt_mul (pow2_pos _), hfield]
  change exponentField bits < 2 ^ f.exponentBits - 1 ↔ _
  omega

end Fields

end BinaryFormat

/-! ## The scale of an expansion -/

/-- Cancelling ends with the exponent or at an odd numerator. -/
theorem cancelTwos_odd (m k : Nat) : (cancelTwos m k).2 = 0 ∨ (cancelTwos m k).1 % 2 = 1 := by
  induction k generalizing m with
  | zero => exact .inl rfl
  | succ k ih =>
    rw [cancelTwos]
    split
    · exact ih (m / 2)
    · exact .inr (by omega)

theorem pow5_mod_two (k : Nat) : pow5 k % 2 = 1 := by
  induction k with
  | zero => rfl
  | succ k ih => rw [pow5_succ, Nat.mul_mod, ih]

namespace Decimal

theorem not_ten_dvd_ofUnits (f : BinaryFormat) (negative : Bool) (units : Nat)
    (h : 0 < (ofUnits f negative units).scale) : ¬ 10 ∣ (ofUnits f negative units).magnitude := by
  have hodd := (cancelTwos_odd units f.depth).resolve_left (Int.natCast_pos.mp h).ne'
  intro hdvd
  have hten : 10 ∣ (cancelTwos units f.depth).1 * pow5 (cancelTwos units f.depth).2 := by
    rw [← natAbs_signed negative (_ * _)]
    exact Int.natCast_dvd.mp hdvd
  have hproduct : (cancelTwos units f.depth).1 * pow5 (cancelTwos units f.depth).2 % 2 = 1 := by
    rw [Nat.mul_mod, hodd, pow5_mod_two]
  omega

theorem isLeast_scale_ofUnits (f : BinaryFormat) (negative : Bool) (units : Nat) :
    IsLeast {s : Int | 0 ≤ s ∧ IsExactAt (ofUnits f negative units).value s}
      (ofUnits f negative units).scale := by
  refine ⟨⟨Int.natCast_nonneg _, isExactAt_value _⟩, ?_⟩
  rintro s ⟨h0, hs⟩
  by_contra hlt
  have hlt := Int.not_le.mp hlt
  exact not_ten_dvd_ofUnits f negative units (h0.trans_lt hlt) (ten_dvd_of_isExactAt hlt hs)

end Decimal

namespace BinaryFormat

open Decimal (isLeast_scale_ofUnits eq_of_value_eq)

variable {f : BinaryFormat} {bits bits' : f.Bits}

theorem scale_exact_of_integer {n : Int} (h : value bits = n) : (exact bits).scale = 0 := by
  have hleast := isLeast_scale_ofUnits f (isNegative bits) (f.units (code bits))
  have hzero : IsExactAt (exact bits).value 0 := ⟨n, by rw [value_exact, h, zpow_zero, mul_one]⟩
  exact le_antisymm (hleast.2 ⟨le_rfl, hzero⟩) hleast.1.1

theorem exact_eq_iff : exact bits = exact bits' ↔ value bits = value bits' := by
  constructor
  · intro h
    rw [← value_exact, h, value_exact]
  · intro h
    have hvalue : (exact bits).value = (exact bits').value := by rw [value_exact, value_exact, h]
    have hleast := isLeast_scale_ofUnits f (isNegative bits) (f.units (code bits))
    have hleast' := isLeast_scale_ofUnits f (isNegative bits') (f.units (code bits'))
    change IsLeast {s : Int | 0 ≤ s ∧ IsExactAt (exact bits).value s} _ at hleast
    rw [hvalue] at hleast
    exact eq_of_value_eq (hleast.unique hleast') hvalue

/-- Only a zero has the value of other bits. -/
theorem eq_or_zero_of_value_eq (h : Finite bits) (h' : Finite bits') (hv : value bits = value bits') :
    bits = bits' ∨ value bits = 0 ∧ value bits' = 0 := by
  by_cases hz : value bits = 0
  · exact .inr ⟨hz, hv ▸ hz⟩
  · have hne {b : f.Bits} (hb : value b ≠ 0) : b ≠ f.negativeZero := by
      rintro rfl
      exact hb (value_eq_zero_iff.mpr (code_ofCode (pow2_pos _)))
    have hback := toBinary_of_value h (value_exact bits)
    rw [toBinary_of_value h' ((value_exact bits).trans hv), if_neg (hne hz),
      if_neg (hne (hv ▸ hz))] at hback
    exact .inl hback.symm

end BinaryFormat

namespace Decimal

open BinaryFormat (exponentField encoded encoded_eq_value)

/-- A finite binary number is expanded to the number that its fields encode, at the least scale at
which there is such a decimal: no more than the depth of the format, and zero if the number is an
integer. An infinity, or what is no number, is refused. Finite bits with the same expansion are
the same bits, or zeros. -/
theorem ofBinary_exact_at_least_scale :
    (∀ (f : BinaryFormat) (bits : f.Bits), exponentField bits ≠ 2 ^ f.exponentBits - 1 →
      ∃ d, ofBinary bits = .ok d ∧ d.value = encoded bits ∧
        IsLeast {s : Int | 0 ≤ s ∧ IsExactAt d.value s} d.scale ∧ d.scale ≤ f.depth ∧
        ((∃ n : Int, encoded bits = n) → d.scale = 0)) ∧
    (∀ (f : BinaryFormat) (bits : f.Bits), exponentField bits = 2 ^ f.exponentBits - 1 →
      ofBinary bits = .error .notFinite) ∧
    (∀ (f : BinaryFormat) (bits bits' : f.Bits), exponentField bits ≠ 2 ^ f.exponentBits - 1 →
      exponentField bits' ≠ 2 ^ f.exponentBits - 1 → ofBinary bits = ofBinary bits' →
      bits = bits' ∨ encoded bits = 0 ∧ encoded bits' = 0) := by
  simp only [encoded_eq_value]
  refine ⟨?_, ?_, ?_⟩
  · intro f bits h
    refine ⟨_, BinaryFormat.ofBinary_of_finite ((BinaryFormat.finite_iff bits).mpr h),
      BinaryFormat.value_exact bits, isLeast_scale_ofUnits _ _ _, ?_, ?_⟩
    · exact Int.ofNat_le.mpr (cancelTwos_le _ _)
    · rintro ⟨n, hn⟩
      exact BinaryFormat.scale_exact_of_integer hn
  · intro f bits h
    exact if_neg fun hfin => (BinaryFormat.finite_iff bits).mp hfin h
  · intro f bits bits' h h' he
    have hfin := (BinaryFormat.finite_iff bits).mpr h
    have hfin' := (BinaryFormat.finite_iff bits').mpr h'
    rw [BinaryFormat.ofBinary_of_finite hfin, BinaryFormat.ofBinary_of_finite hfin',
      Except.ok.injEq, BinaryFormat.exact_eq_iff] at he
    exact BinaryFormat.eq_or_zero_of_value_eq hfin hfin' he

/-- The least double below zero, which needs all places, an infinity, and the two zeros. -/
theorem ofBinary_exact_at_least_scale_at_ends :
    (exponentField (BinaryFormat.double.ofCode true 1) ≠ 2 ^ 11 - 1 ∧
      ∃ d, ofBinary (BinaryFormat.double.ofCode true 1) = .ok d ∧
        d.value = encoded (BinaryFormat.double.ofCode true 1) ∧ d.scale ≤ 1074) ∧
    ((∃ n : Int, encoded (0 : BinaryFormat.double.Bits) = n) ∧
      ∃ d, ofBinary (0 : BinaryFormat.double.Bits) = .ok d ∧ d.scale = 0) ∧
    (exponentField (BinaryFormat.double.ofCode true BinaryFormat.double.infinity) = 2 ^ 11 - 1 ∧
      ofBinary (BinaryFormat.double.ofCode true BinaryFormat.double.infinity) = .error .notFinite) ∧
    (exponentField (0 : BinaryFormat.double.Bits) ≠ 2 ^ 11 - 1 ∧
      exponentField BinaryFormat.double.negativeZero ≠ 2 ^ 11 - 1 ∧
      ofBinary (0 : BinaryFormat.double.Bits) = ofBinary BinaryFormat.double.negativeZero ∧
      encoded (0 : BinaryFormat.double.Bits) = 0 ∧ encoded BinaryFormat.double.negativeZero = 0) := by
  have hleast : exponentField (BinaryFormat.double.ofCode true 1) ≠ 2 ^ 11 - 1 := by decide
  have hinf : exponentField (BinaryFormat.double.ofCode true BinaryFormat.double.infinity) =
      2 ^ 11 - 1 := by decide
  have hzero : exponentField (0 : BinaryFormat.double.Bits) ≠ 2 ^ 11 - 1 := by decide
  have hnegative : exponentField BinaryFormat.double.negativeZero ≠ 2 ^ 11 - 1 := by decide
  have hsame : ofBinary (0 : BinaryFormat.double.Bits) =
      ofBinary BinaryFormat.double.negativeZero := by decide +kernel
  obtain ⟨d, hd, hvalue, -, hscale, -⟩ := ofBinary_exact_at_least_scale.1 .double _ hleast
  obtain ⟨z, hz, -, -, -, hinteger⟩ := ofBinary_exact_at_least_scale.1 .double _ hzero
  have hzeros : encoded (0 : BinaryFormat.double.Bits) = 0 ∧
      encoded BinaryFormat.double.negativeZero = 0 :=
    (ofBinary_exact_at_least_scale.2.2 .double _ _ hzero hnegative hsame).resolve_left (by decide)
  have hint : ∃ n : Int, encoded (0 : BinaryFormat.double.Bits) = n :=
    ⟨0, by rw [hzeros.1, Int.cast_zero]⟩
  exact ⟨⟨hleast, d, hd, hvalue, hscale⟩, ⟨hint, z, hz, hinteger hint⟩,
    ⟨hinf, ofBinary_exact_at_least_scale.2.1 .double _ hinf⟩, hzero, hnegative, hsame, hzeros⟩

end Decimal

end ExactDecimal
