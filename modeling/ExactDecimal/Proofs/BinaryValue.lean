import ExactDecimal.Binary.Format
import ExactDecimal.Proofs.Value
import Mathlib.Algebra.Field.Rat
import Mathlib.Algebra.Order.Field.Basic
import Mathlib.Order.Monotone.Basic
/-!
Codes count the numbers of a binary format from zero upward. A code is its shift, in multiples of
the hidden bit, plus its significand; the distance to the next number is two to the power of the
shift, also where the significand overflows into the next shift. So codes and numbers have the same
order, and no case of a theorem has to be made for a power of two or for the least numbers.

Finite bits stand for a rational number: a sign, and a multiple of the least positive number of the
format. The distance of a number from bits of its own sign is that of the two sizes; bits of the
other sign are never nearer than the sizes are to each other.
-/
namespace ExactDecimal.BinaryFormat

section Units

variable (f : BinaryFormat)

/-- The hidden bit is even, so that significands have the parity of their codes. -/
theorem pow2_fractionBits_mod_two : pow2 f.fractionBits % 2 = 0 := by
  cases f <;> decide

/-! ## Codes as shift and significand -/

section Parts

variable {f} {shift significand : Nat} (hs : significand < 2 * pow2 f.fractionBits)
  (hn : shift = 0 ∨ pow2 f.fractionBits ≤ significand)

include hs hn

theorem shift_add : f.shift (shift * pow2 f.fractionBits + significand) = shift := by
  have hp := pow2_pos f.fractionBits
  rw [BinaryFormat.shift, Nat.add_comm, Nat.add_mul_div_right _ _ hp]
  by_cases h : significand < pow2 f.fractionBits
  · rw [Nat.div_eq_of_lt h]
    omega
  · have hone : significand / pow2 f.fractionBits = 1 :=
      Nat.div_eq_of_lt_le (by omega) (by omega)
    omega

theorem significand_add : f.significand (shift * pow2 f.fractionBits + significand) = significand := by
  rw [BinaryFormat.significand]
  by_cases h : significand < pow2 f.fractionBits
  · obtain rfl : shift = 0 := by omega
    rw [Nat.zero_mul, Nat.zero_add, if_pos h]
  · rw [if_neg (by omega), Nat.add_comm (shift * _), Nat.add_mul_mod_self_right,
      Nat.mod_eq_sub_mod (by omega), Nat.mod_eq_of_lt (by omega)]
    omega

theorem units_add :
    f.units (shift * pow2 f.fractionBits + significand) = significand * pow2 shift := by
  rw [units, shift_add hs hn, significand_add hs hn]

end Parts

theorem significand_lt (code : Nat) : f.significand code < 2 * pow2 f.fractionBits := by
  have := Nat.mod_lt code (pow2_pos f.fractionBits)
  rw [significand]
  split <;> omega

theorem significand_normal (code : Nat) :
    f.shift code = 0 ∨ pow2 f.fractionBits ≤ f.significand code := by
  rw [significand, shift]
  split
  · rename_i h
    rw [Nat.div_eq_of_lt h]
    exact .inl rfl
  · exact .inr (Nat.le_add_right _ _)

theorem code_eq (code : Nat) :
    f.shift code * pow2 f.fractionBits + f.significand code = code := by
  have hd := Nat.div_add_mod' code (pow2 f.fractionBits)
  rw [significand, shift]
  split
  · rename_i h
    rw [Nat.div_eq_of_lt h]
    omega
  · rename_i h
    have hpos : 0 < code / pow2 f.fractionBits := Nat.div_pos (by omega) (pow2_pos _)
    have hm : code / pow2 f.fractionBits = code / pow2 f.fractionBits - 1 + 1 := by omega
    rw [hm, Nat.add_mul] at hd
    omega

theorem significand_mod_two (code : Nat) : f.significand code % 2 = code % 2 := by
  have h := f.code_eq code
  have hp := f.pow2_fractionBits_mod_two
  have hm : f.shift code * pow2 f.fractionBits % 2 = 0 := by rw [Nat.mul_mod, hp, Nat.mul_zero]
  omega

/-! ## The order of the numbers -/

/-- A significand that is full becomes the hidden bit at the next shift. -/
theorem units_succ (code : Nat) : f.units (code + 1) = f.units code + pow2 (f.shift code) := by
  have hc := f.code_eq code
  have hs := f.significand_lt code
  have hn := f.significand_normal code
  by_cases hfull : f.significand code + 1 < 2 * pow2 f.fractionBits
  · have hcode : code + 1 = f.shift code * pow2 f.fractionBits + (f.significand code + 1) := by omega
    conv_lhs => rw [hcode]
    rw [units_add hfull (by omega), Nat.add_mul, Nat.one_mul, units]
  · have hcode : code + 1 = (f.shift code + 1) * pow2 f.fractionBits + pow2 f.fractionBits := by
      rw [Nat.add_mul]
      omega
    have hsig : f.significand code + 1 = 2 * pow2 f.fractionBits := by omega
    have hp := pow2_pos f.fractionBits
    conv_lhs => rw [hcode]
    rw [units_add (by omega) (.inr le_rfl), pow2_succ, units]
    calc
      _ = 2 * pow2 f.fractionBits * pow2 (f.shift code) := by ac_rfl
      _ = _ := by rw [← hsig, Nat.add_mul, Nat.one_mul]

theorem units_strictMono : StrictMono f.units :=
  strictMono_nat_of_lt_succ fun code => by
    rw [units_succ]
    exact Nat.lt_add_of_pos_right (pow2_pos _)

end Units

/-! ## The rational number of finite bits -/

variable {f : BinaryFormat}

/-- Bits of a finite number, as opposed to those of an infinity or of no number. -/
def Finite (bits : f.Bits) : Prop := code bits < f.infinity

instance (bits : f.Bits) : Decidable (Finite bits) :=
  inferInstanceAs (Decidable (code bits < f.infinity))

/-- The number that finite bits stand for. -/
def value (bits : f.Bits) : ℚ := signed (isNegative bits) (f.units (code bits)) / 2 ^ f.depth

theorem infinity_lt_codeCount (f : BinaryFormat) : f.infinity < f.codeCount := by
  cases f <;> decide

section OfCode

variable {negative : Bool} {c : Nat} (h : c < f.codeCount)

include h

theorem toNat_ofCode : (f.ofCode negative c).toNat = if negative then f.codeCount + c else c := by
  have hw : 2 ^ (f.exponentBits + f.fractionBits + 1) = f.codeCount + f.codeCount := by
    rw [pow_succ, mul_two]
    rfl
  rw [ofCode, BitVec.toNat_ofNat, hw]
  apply Nat.mod_eq_of_lt
  split <;> omega

theorem code_ofCode : code (f.ofCode negative c) = c := by
  rw [code, toNat_ofCode h]
  cases negative with
  | false => exact Nat.mod_eq_of_lt h
  | true =>
    rw [if_pos rfl, Nat.add_mod_left]
    exact Nat.mod_eq_of_lt h

theorem isNegative_ofCode : isNegative (f.ofCode negative c) = negative := by
  rw [isNegative, toNat_ofCode h]
  cases negative with
  | false => simpa using h
  | true => simp

end OfCode

theorem size_nonneg (bits : f.Bits) : (0 : ℚ) ≤ f.units (code bits) / 2 ^ f.depth :=
  div_nonneg (Nat.cast_nonneg _) (pow_pos (by decide) _).le

theorem value_of_not_negative {bits : f.Bits} (h : isNegative bits = false) :
    value bits = f.units (code bits) / 2 ^ f.depth := by
  rw [value, h]
  rfl

theorem value_of_negative {bits : f.Bits} (h : isNegative bits = true) :
    value bits = -(f.units (code bits) / 2 ^ f.depth) := by
  have hs : signed true (f.units (code bits)) = -(f.units (code bits) : Int) := rfl
  rw [value, h, hs, Int.cast_neg, Int.cast_natCast, neg_div]

theorem abs_value (bits : f.Bits) : |value bits| = f.units (code bits) / 2 ^ f.depth := by
  cases h : isNegative bits with
  | false => rw [value_of_not_negative h, abs_of_nonneg (size_nonneg bits)]
  | true => rw [value_of_negative h, abs_neg, abs_of_nonneg (size_nonneg bits)]

/-- The distance of two sizes, in units. -/
theorem abs_abs_sub_abs_value (x : ℚ) (bits : f.Bits) :
    |(|x| - |value bits|)| = |(|x| * 2 ^ f.depth - f.units (code bits))| / 2 ^ f.depth := by
  have hpow : (0 : ℚ) < 2 ^ f.depth := pow_pos (by decide) _
  have hsub : |x| - |value bits| = (|x| * 2 ^ f.depth - f.units (code bits)) / 2 ^ f.depth := by
    rw [abs_value, sub_div, mul_div_cancel_right₀ _ hpow.ne']
  rw [hsub, abs_div, abs_of_pos hpow]

theorem le_abs_sub_value (x : ℚ) (bits : f.Bits) :
    |(|x| * 2 ^ f.depth - f.units (code bits))| / 2 ^ f.depth ≤ |x - value bits| := by
  rw [← abs_abs_sub_abs_value]
  exact abs_abs_sub_abs_le x (value bits)

theorem abs_sub_value_of_sign {x : ℚ} {bits : f.Bits} (h : isNegative bits = decide (x < 0)) :
    |x - value bits| = |(|x| * 2 ^ f.depth - f.units (code bits))| / 2 ^ f.depth := by
  rw [← abs_abs_sub_abs_value]
  by_cases hx : x < 0
  · have hv : value bits ≤ 0 := by
      rw [value_of_negative (h.trans (decide_eq_true hx))]
      exact neg_nonpos.mpr (size_nonneg bits)
    rw [abs_of_neg hx, abs_of_nonpos hv, neg_sub_neg, abs_sub_comm]
  · have hv : 0 ≤ value bits := by
      rw [value_of_not_negative (h.trans (decide_eq_false hx))]
      exact size_nonneg bits
    rw [abs_of_nonneg (not_lt.mp hx), abs_of_nonneg hv]

end ExactDecimal.BinaryFormat
