import ExactDecimal.Json
import ExactDecimal.Decimal.Order
import ExactDecimal.Proofs.Canonical
import ExactDecimal.Proofs.Shortest
/-!
Numbers in JSON. Their grammar is that of number texts with plain figures and no plus sign in
front. A number that fits a word of 64 bits is kept as it is; every other one goes through the
double format and is the shortest decimal of what it is rounded to. For literals of at most fifteen
significant digits nothing is lost on that way, as ten to the power of fifteen is less than the
hidden bit.
-/
namespace ExactDecimal

open Text

/-- A number of the JSON grammar. -/
structure JsonLiteral where
  negative : Bool
  figures : Plain
  exponent : Option Exponent

namespace JsonLiteral

variable (l : JsonLiteral)

/-- The literal as a number text. -/
def spelling : Spelling where
  sign := .ofNegative l.negative
  figures := l.figures.toFigures
  exponent := l.exponent

def chars : List Char := l.spelling.chars

/-- The integer that sign and digits spell with the point left out. -/
def coefficient : Int := signed l.negative l.figures.number

/-- The power of ten that is left of the exponent once the places are taken off. -/
def power : Int := l.spelling.power - l.figures.places

/-- The exact value of the literal. -/
def value : ℚ := l.coefficient * 10 ^ l.power

/-- An integer without point and exponent. -/
def IsInteger : Prop := l.figures.fraction = none ∧ l.exponent = none

instance : Decidable l.IsInteger :=
  inferInstanceAs (Decidable (l.figures.fraction = none ∧ l.exponent = none))

/-- An integer that a word of 64 bits holds, with or without a sign. -/
def IsWord : Prop :=
  l.IsInteger ∧
    ((WordType.twosComplement 64).Holds l.coefficient ∨ (WordType.unsigned 64).Holds l.coefficient)

/-- At most fifteen significant digits, and zero or from the least normal to the largest finite
double number in size. -/
def IsModerate : Prop :=
  (significant l.figures.digits).length ≤ 15 ∧
    (l.value = 0 ∨ 1 / 2 ^ 1022 ≤ |l.value| ∧ |l.value| ≤ (2 ^ 53 - 1) * 2 ^ 971)

/-! ## Reading a literal -/

/-- What the literal is read as. -/
def number : JsonNumber :=
  if l.IsInteger then .integer l.negative l.figures.number
  else .scientific l.negative l.figures.number l.power

theorem coefficient_spelling : l.spelling.coefficient = l.coefficient := by
  rw [Spelling.coefficient, spelling, Sign.isMinus_ofNegative]
  rfl

theorem power_eq : l.power = (l.exponent.map Exponent.value).getD 0 - l.figures.places := by
  rw [power, Spelling.power_eq]
  rfl

theorem chars_eq : l.chars = (if l.negative then ['-'] else []) ++ l.spelling.body := by
  rw [chars, Spelling.chars, ← Sign.chars_ofNegative]
  rfl

/-- Only a minus sign can stand in front. -/
theorem splitMinus_chars :
    (l.chars.head? == some '-') = l.negative ∧
      (if l.negative then l.chars.tail else l.chars) = l.spelling.body := by
  have hbody : l.spelling.body.head? ≠ some '-' := fun h => l.spelling.not_startsSigned_body (.inr h)
  rw [chars_eq]
  cases l.negative with
  | true => exact ⟨rfl, rfl⟩
  | false => exact ⟨beq_eq_false_iff_ne.mpr hbody, rfl⟩

theorem isDigits_iff {text : List Char} :
    JsonNumber.isDigits text = true ↔ text ≠ [] ∧ Digits text := by
  rw [JsonNumber.isDigits, Bool.and_eq_true, Bool.not_eq_true', List.isEmpty_eq_false_iff,
    List.all_eq_true]
  rfl

theorem readFraction?_elim (p : Plain) :
    JsonNumber.readFraction? (p.fraction.elim [] ('.' :: ·)) = some (p.fraction.getD []) := by
  have hd : Digits (p.fraction.getD []) := p.digits_spec.right
  have hne := p.fraction_spec
  cases h : p.fraction with
  | none => rfl
  | some fraction =>
    rw [h] at hd hne
    have hdigits := isDigits_iff.mpr ⟨fun e => hne (congrArg some e), hd⟩
    rw [Option.elim_some, JsonNumber.readFraction?, hdigits]
    rfl

theorem guard_whole (p : Plain) :
    (JsonNumber.isDigits p.whole && (p.whole.head? != some '0' || p.whole.length == 1)) = true := by
  rw [isDigits_iff.mpr ⟨p.whole_ne_nil, p.digits_spec.left⟩, Bool.true_and, Bool.or_eq_true]
  obtain h | ⟨-, h⟩ := p.whole_spec
  · rw [h]
    exact .inr rfl
  · exact .inl (bne_iff_ne.mpr h)

theorem read?_chars : JsonNumber.read? l.chars = some l.number := by
  obtain ⟨hminus, hbody⟩ := l.splitMinus_chars
  have hmarker : splitMarker l.spelling.body =
      (l.figures.toFigures.chars, l.exponent.map Exponent.tail) := l.spelling.splitMarker_body
  simp only [JsonNumber.read?, hminus, hbody, hmarker, Figures.takeWhile_chars,
    Figures.dropWhile_chars, guard_whole, readFraction?_elim,
    BinaryFormat.mapM_readExponent?_tail]
  by_cases h : l.IsInteger
  · rw [number, if_pos h, Figures.number, h.1, h.2]
    simp
  · rw [number, if_neg h, power_eq, Figures.number, Figures.places]
    -- a point or an exponent is there, and either keeps the reader from its first alternative
    cases he : l.exponent with
    | some e =>
      cases l.figures.fraction.getD [] with
      | nil => rfl
      | cons c fraction => rfl
    | none =>
      cases hf : l.figures.fraction with
      | none => exact absurd ⟨hf, he⟩ h
      | some fraction =>
        cases fraction with
        | nil => exact absurd hf l.figures.fraction_spec
        | cons c fraction => rfl

/-! ## What the literal stands for -/

theorem power_of_isInteger {l : JsonLiteral} (h : l.IsInteger) : l.power = 0 := by
  have hplaces := l.figures.fraction_eq_none_iff.mp h.1
  rw [power, Spelling.power_of_none (s := l.spelling) h.2, hplaces]
  rfl

theorem toDouble_number : l.number.toDouble =
    BinaryFormat.double.ofCode l.negative
      (BinaryFormat.double.nearest l.figures.number l.power) := by
  rw [number]
  split
  · rename_i h
    rw [power_of_isInteger h]
    rfl
  · rfl

theorem abs_value : |l.value| = l.figures.number * 10 ^ l.power := by
  rw [value, abs_mul, abs_of_pos (ten_zpow_pos _), coefficient, ← Int.cast_abs, Int.abs_eq_natAbs,
    natAbs_signed, Int.cast_natCast]

theorem fitsWord_of_isWord {l : JsonLiteral} (h : l.IsWord) :
    JsonNumber.FitsWord l.negative l.figures.number := by
  obtain ⟨-, hword⟩ := h
  rw [coefficient] at hword
  rw [JsonNumber.FitsWord]
  cases hn : l.negative with
  | false =>
    have hlimit : l.figures.number < pow2 64 := by
      rw [hn] at hword
      obtain ⟨-, h⟩ | ⟨-, h⟩ := hword
      · exact (Int.ofNat_lt.mp h).trans (by decide)
      · exact Int.ofNat_lt.mp h
    exact Nat.le_of_lt_succ hlimit
  | true =>
    have hleast : (l.figures.number : Int) ≤ pow2 63 := by
      rw [hn] at hword
      obtain ⟨h, -⟩ | ⟨h, -⟩ := hword
      · exact Int.neg_le_neg_iff.mp h
      · exact (Int.neg_nonneg.mp h).trans (by decide)
    exact Int.ofNat_le.mp hleast

theorem largest_double : (BinaryFormat.double.units (BinaryFormat.double.infinity - 1) : ℚ) =
    (2 ^ 53 - 1) * 2 ^ 971 * 2 ^ BinaryFormat.double.depth := by
  have h : BinaryFormat.double.units (BinaryFormat.double.infinity - 1) +
      pow2 971 * pow2 BinaryFormat.double.depth =
        pow2 53 * (pow2 971 * pow2 BinaryFormat.double.depth) := by
    decide +kernel
  have hcast : (BinaryFormat.double.units (BinaryFormat.double.infinity - 1) : ℚ) +
      2 ^ 971 * 2 ^ BinaryFormat.double.depth =
        2 ^ 53 * (2 ^ 971 * 2 ^ BinaryFormat.double.depth) := by
    rw [← cast_pow2, ← cast_pow2, ← cast_pow2]
    exact_mod_cast h
  rw [sub_mul, sub_mul, one_mul, mul_assoc, ← hcast, add_sub_cancel_right]

theorem least_normal_double : (1 : ℚ) / 2 ^ 1022 * 2 ^ BinaryFormat.double.depth =
    pow2 BinaryFormat.double.fractionBits := by
  have hdepth : BinaryFormat.double.depth = 1022 + 52 := rfl
  have hbits : BinaryFormat.double.fractionBits = 52 := rfl
  rw [hdepth, hbits, pow_add, cast_pow2, ← mul_assoc,
    one_div_mul_cancel (pow_ne_zero _ (by decide)), one_mul]

/-- What the range means in the units of the double format. -/
theorem number_eq_zero_or_in_range {l : JsonLiteral} (h : l.IsModerate) :
    l.figures.number = 0 ∨
      (pow2 BinaryFormat.double.fractionBits : ℚ) ≤
        l.figures.number * 10 ^ l.power * 2 ^ BinaryFormat.double.depth ∧
      l.figures.number * 10 ^ l.power * 2 ^ BinaryFormat.double.depth ≤
        (BinaryFormat.double.units (BinaryFormat.double.infinity - 1) : ℚ) := by
  have hpos : (0 : ℚ) ≤ 2 ^ BinaryFormat.double.depth := by positivity
  obtain ⟨-, hzero | ⟨hlower, hupper⟩⟩ := h
  · left
    rw [value, mul_eq_zero, Int.cast_eq_zero, or_iff_left (ten_zpow_pos _).ne', coefficient,
      signed_eq_zero] at hzero
    exact hzero
  · right
    rw [← abs_value, ← least_normal_double, largest_double]
    exact ⟨mul_le_mul_of_nonneg_right hlower hpos, mul_le_mul_of_nonneg_right hupper hpos⟩

/-- Fifteen digits are less than the hidden bit. -/
theorem significant_lt_hiddenBit {l : JsonLiteral} (h : l.IsModerate) :
    ofNumeral (significant l.figures.digits) < pow2 BinaryFormat.double.fractionBits := by
  have hlt := ofNumeral_lt (digits_significant l.figures.digits_digits)
  have hle : pow10 (significant l.figures.digits).length ≤ pow10 15 :=
    Nat.pow_le_pow_right (by decide) h.1
  have hbits : pow10 15 < pow2 BinaryFormat.double.fractionBits := by decide
  exact (hlt.trans_le hle).trans hbits

end JsonLiteral

namespace Decimal

theorem ofJsonNumber_of_fitsWord {l : JsonLiteral} (h : l.IsInteger)
    (hword : JsonNumber.FitsWord l.negative l.figures.number) :
    ∃ d, ofJsonNumber l.number = .ok d ∧ d.value = l.value := by
  refine ⟨ofInt l.coefficient, ?_, ?_⟩
  · rw [JsonLiteral.number, if_pos h]
    exact if_pos hword
  · rw [value_ofInt, JsonLiteral.value, JsonLiteral.power_of_isInteger h, zpow_zero, mul_one]

theorem ofJsonNumber_of_isModerate {l : JsonLiteral} (h : l.IsModerate) :
    ∃ d, ofJsonNumber l.number = .ok d ∧ d.value = l.value := by
  by_cases hword : l.IsInteger ∧ JsonNumber.FitsWord l.negative l.figures.number
  · exact ofJsonNumber_of_fitsWord hword.1 hword.2
  · have hdouble : ofJsonNumber l.number = ofBinaryShortest l.number.toDouble := by
      rw [JsonLiteral.number]
      split
      · rename_i hi
        exact if_neg fun hw => hword ⟨hi, hw⟩
      · rfl
    -- the literal need not be written with its significant digits alone
    obtain ⟨k, hk⟩ := exists_ofNumeral_eq_significant l.figures.digits
    rw [hdouble, JsonLiteral.toDouble_number]
    exact ofBinaryShortest_nearest l.negative (JsonLiteral.number_eq_zero_or_in_range h)
      (JsonLiteral.significant_lt_hiddenBit h) hk

/-- A JSON number that fits a word of 64 bits, or has at most fifteen significant digits and a size
that is zero or that of a normal double number, is read as its exact value, which is also what
its text is read as if that is possible. -/
theorem ofJson_number_exact (l : JsonLiteral) (h : l.IsWord ∨ l.IsModerate) :
    ∃ number d, JsonNumber.read? l.chars = some number ∧ ofJson (.number number) = .ok d ∧
      d.value = l.value ∧ ∀ e, ofText (String.ofList l.chars) = .ok e → d.value = e.value := by
  have hread : ∃ d, ofJsonNumber l.number = .ok d ∧ d.value = l.value := by
    obtain hword | hmoderate := h
    · exact ofJsonNumber_of_fitsWord hword.1 (JsonLiteral.fitsWord_of_isWord hword)
    · exact ofJsonNumber_of_isModerate hmoderate
  obtain ⟨d, hd, hvalue⟩ := hread
  refine ⟨l.number, d, l.read?_chars, ?_, hvalue, ?_⟩
  · rw [ofJson, hd]
    rfl
  · intro e he
    rw [ofText, String.toList_ofList] at he
    obtain ⟨-, hm, hs⟩ := ofChars_eq_ok_iff.mp he
    rw [hvalue, value_of_parts hm hs, l.coefficient_spelling]
    rfl

/-- The largest word, with twenty digits. -/
def largestWord : JsonLiteral where
  negative := false
  figures := {
    whole := "18446744073709551615".toList
    fraction := none
    digits_spec := by decide
    digits_ne_nil := by decide
    whole_spec := by decide
    fraction_spec := by decide }
  exponent := none

/-- A power of ten that no double number equals. -/
def inexactPower : JsonLiteral where
  negative := true
  figures := {
    whole := ['1']
    fraction := some ['0']
    digits_spec := by decide
    digits_ne_nil := by decide
    whole_spec := by decide
    fraction_spec := by decide }
  exponent := some ⟨'e', .plus, "23".toList, by decide, by decide, by decide⟩

theorem isModerate_inexactPower : inexactPower.IsModerate := by
  have hvalue : |inexactPower.value| = 10 ^ 23 := by
    have hnumber : inexactPower.figures.number = 10 := by decide
    have hpower : inexactPower.power = 22 := by decide
    rw [JsonLiteral.abs_value, hnumber, hpower]
    norm_num
  refine ⟨by decide, .inr ⟨?_, ?_⟩⟩
  · rw [hvalue]
    calc
      (1 : ℚ) / 2 ^ 1022 ≤ 1 := (div_le_one (by positivity)).mpr (one_le_pow₀ (by decide))
      _ ≤ 10 ^ 23 := one_le_pow₀ (by decide)
  · rw [hvalue]
    calc
      (10 : ℚ) ^ 23 ≤ 2 ^ 100 := by norm_num
      _ ≤ 2 ^ 971 := pow_le_pow_right₀ (by decide) (by decide)
      _ ≤ (2 ^ 53 - 1) * 2 ^ 971 := le_mul_of_one_le_left (by positivity) (by norm_num)

theorem ofJson_number_exact_of_word_and_power :
    (largestWord.IsWord ∧ ∃ number d,
      JsonNumber.read? "18446744073709551615".toList = some number ∧
      ofJson (.number number) = .ok d ∧ d.value = 18446744073709551615) ∧
    (inexactPower.IsModerate ∧ ∃ number d, JsonNumber.read? "-1.0e+23".toList = some number ∧
      ofJson (.number number) = .ok d ∧ d.value = -10 ^ 23) := by
  have hword : largestWord.IsWord := ⟨by decide, by decide⟩
  obtain ⟨n, d, hn, hd, hvalue, -⟩ := ofJson_number_exact largestWord (.inl hword)
  obtain ⟨n', d', hn', hd', hvalue', -⟩ :=
    ofJson_number_exact inexactPower (.inr isModerate_inexactPower)
  refine ⟨⟨hword, n, d, hn, hd, ?_⟩, ⟨isModerate_inexactPower, n', d', hn', hd', ?_⟩⟩
  · have hpower : largestWord.power = 0 := by decide
    have hcoefficient : largestWord.coefficient = 18446744073709551615 := by decide
    rw [hvalue, JsonLiteral.value, hpower, hcoefficient]
    norm_num
  · have hpower : inexactPower.power = 22 := by decide
    have hcoefficient : inexactPower.coefficient = -10 := by decide
    rw [hvalue', JsonLiteral.value, hpower, hcoefficient]
    norm_num

end Decimal

end ExactDecimal
