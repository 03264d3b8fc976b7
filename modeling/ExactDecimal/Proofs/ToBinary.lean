import ExactDecimal.Binary.Format
import ExactDecimal.Proofs.BinaryValue
import ExactDecimal.Proofs.Nearest
import ExactDecimal.Proofs.RoundTrip
/-!
Decimals are converted to the nearest binary number, in each format straight from the exact value.
The text of a decimal spells that value, and the reader of binary numbers, which takes a text apart
in its own way, rounds what is spelled. The sign of a decimal is that of its value and the code is
the one to which its size is rounded, so that the scale does not matter; between the two ends of a
format the distance to every finite number is the distance of the sizes, or more.
-/
namespace ExactDecimal

namespace BinaryFormat

/-- The least size that is rounded to infinity: half a step past the largest finite number. -/
def overflow : BinaryFormat → Nat
  | single => 2 ^ 128 - 2 ^ 103
  | double => 2 ^ 1024 - 2 ^ 970

/-- The largest size that is rounded to zero: half the least positive number. -/
def underflow : BinaryFormat → ℚ
  | single => 1 / 2 ^ 150
  | double => 1 / 2 ^ 1075

/-- Bits of a finite number to which no finite number of the format is preferred: none is nearer to
`x`, and if another one is as near, the significand is even. -/
structure IsNearest {f : BinaryFormat} (x : ℚ) (bits : f.Bits) : Prop where
  finite : Finite bits
  nearest : ∀ other : f.Bits, Finite other → |x - value bits| ≤ |x - value other|
  even : ∀ other : f.Bits, Finite other → value other ≠ value bits →
    |x - value bits| = |x - value other| → f.significand (code bits) % 2 = 0

theorem last_midpoint (f : BinaryFormat) :
    f.doubleMidpoint (f.infinity - 1) = 2 * (f.overflow * pow2 f.depth) := by
  cases f <;> decide +kernel

theorem overflow_le_iff {f : BinaryFormat} {x : ℚ} :
    (f.doubleMidpoint (f.infinity - 1) : ℚ) ≤ 2 * (x * 2 ^ f.depth) ↔ f.overflow ≤ x := by
  have hpow : (0 : ℚ) < 2 ^ f.depth := pow_pos (by decide) _
  rw [last_midpoint, Nat.cast_mul, Nat.cast_mul, cast_pow2, Nat.cast_ofNat,
    mul_le_mul_iff_right₀ two_pos, mul_le_mul_iff_left₀ hpow]

theorem underflow_eq (f : BinaryFormat) : f.underflow = 1 / 2 ^ (f.depth + 1) := by
  cases f <;> rfl

theorem le_underflow_iff {f : BinaryFormat} {x : ℚ} :
    2 * (x * 2 ^ f.depth) ≤ f.doubleMidpoint 0 ↔ x ≤ f.underflow := by
  have hpow : (0 : ℚ) < 2 ^ (f.depth + 1) := pow_pos (by decide) _
  rw [doubleMidpoint_zero, Nat.cast_one, underflow_eq, le_div_iff₀ hpow, pow_succ, mul_comm 2,
    mul_assoc]

/-- Bits of the right sign with the code to which the size is rounded are the nearest ones. -/
theorem isNearest_of_roundsTo {f : BinaryFormat} {x : ℚ} {bits : f.Bits} (hfin : Finite bits)
    (hsign : isNegative bits = decide (x < 0))
    (hcode : RoundsTo f (|x| * 2 ^ f.depth) (code bits)) : IsNearest x bits := by
  have hpow : (0 : ℚ) < 2 ^ f.depth := pow_pos (by decide) _
  have hle (other : f.Bits) : |x - value bits| ≤
      |(|x| * 2 ^ f.depth - f.units (code other))| / 2 ^ f.depth := by
    rw [abs_sub_value_of_sign hsign]
    exact div_le_div_of_nonneg_right (hcode.nearest _) hpow.le
  refine ⟨hfin, fun other _ => (hle other).trans (le_abs_sub_value x other), ?_⟩
  intro other _ hne htie
  rw [significand_mod_two]
  by_cases hk : code other = code bits
  · -- the two zeros apart, bits of opposite signs are as near only to zero
    have habs : |value other| = |value bits| := by rw [abs_value, abs_value, hk]
    have hx : x = 0 := by
      have hopp := (abs_eq_abs.mp habs).resolve_left hne
      obtain h | h := abs_eq_abs.mp htie
      · exact absurd (by linarith) hne
      · linarith
    have hz : code bits ≤ 0 := by
      rw [hcode.le_iff_of_even rfl, hx, abs_zero, zero_mul, mul_zero]
      exact Nat.cast_nonneg _
    rw [Nat.le_zero.mp hz]
  · refine hcode.even_of_tie hk (le_antisymm (hcode.nearest _) ?_)
    have hge := le_abs_sub_value x other
    rw [← htie, abs_sub_value_of_sign hsign] at hge
    exact (div_le_div_iff_of_pos_right hpow).mp hge

/-! ## Reading spelled texts -/

section Reading

open Text

theorem readFraction?_chars (g : Figures) :
    readFraction? (g.chars.dropWhile Char.isDigit) = some (g.fraction.getD []) := by
  have hd : Digits (g.fraction.getD []) := g.digits_spec.right
  rw [g.dropWhile_chars]
  cases hf : g.fraction with
  | none => rfl
  | some fraction =>
    rw [hf] at hd
    have hall : fraction.all Char.isDigit = true := List.all_eq_true.mpr hd
    simp [readFraction?, hall]

theorem readExponent?_tail (e : Exponent) : readExponent? e.tail = some e.value := by
  have hs := splitSign_append e.sign (not_startsSigned_digits e.digits_spec e.digits_ne_nil)
  have hd : e.digits.all Char.isDigit = true := List.all_eq_true.mpr e.digits_spec
  have hne : e.digits.isEmpty = false := List.isEmpty_eq_false_iff.mpr e.digits_ne_nil
  rw [readExponent?, Exponent.tail, hs]
  simp only [hd, hne]
  rfl

theorem mapM_readExponent?_tail (exponent : Option Exponent) :
    (exponent.map Exponent.tail).mapM readExponent? = some (exponent.map Exponent.value) := by
  cases exponent with
  | none => rfl
  | some e =>
    rw [Option.map_some, Option.mapM_some, readExponent?_tail]
    rfl

theorem readNumber?_body (s : Spelling) :
    readNumber? s.body = some (s.figures.number, s.power - s.places) := by
  have hne : (s.figures.whole ++ s.figures.fraction.getD []).isEmpty = false :=
    List.isEmpty_eq_false_iff.mpr s.figures.digits_ne_nil
  simp only [readNumber?, s.splitMarker_body, s.figures.takeWhile_chars, readFraction?_chars,
    mapM_readExponent?_tail, Option.bind_eq_bind, Option.bind_some, hne, Bool.false_eq_true,
    if_false, ← s.power_eq]
  rfl

/-- Every spelled text is read, and no exponent is out of range. -/
theorem ofText?_of_spelling (f : BinaryFormat) (s : Spelling) {text : String}
    (h : s.chars = text.toList) :
    f.ofText? text =
      some (f.ofCode s.sign.isMinus (f.nearest s.figures.number (s.power - s.places))) := by
  simp only [ofText?, ← h, s.splitSign_chars, readNumber?_body]
  rfl

/-- The same for a text without an exponent. -/
theorem ofText?_of_spells (f : BinaryFormat) {text : List Char} {n places : Nat}
    (h : Spells text n places) (sign : Sign) :
    f.ofText? (String.ofList (sign.chars ++ text)) =
      some (f.ofCode sign.isMinus (f.nearest n (-places))) := by
  obtain ⟨g, rfl, rfl, rfl⟩ := h
  have hs : Spelling.chars ⟨sign, g, none⟩ = (String.ofList (sign.chars ++ g.chars)).toList := by
    rw [String.toList_ofList, Spelling.chars, Spelling.body_of_none rfl]
  rw [f.ofText?_of_spelling _ hs, Spelling.power_of_none rfl, Int.zero_sub]
  rfl

end Reading

/-! ## The bits of a decimal -/

variable (f : BinaryFormat)

/-- What is read is what the text shows, with the zeros of a negative scale written out. -/
theorem toBinary?_eq (d : Decimal) :
    d.toBinary? f =
      some (f.ofCode d.isNegative (f.nearest d.written.magnitude.natAbs (-d.written.scale))) := by
  rw [Decimal.toBinary?, Decimal.toText, d.toChars_eq, f.ofText?_of_spells d.spells_digitChars,
    d.isMinus_sign, d.magnitude_written, d.scale_written, Int.natAbs_mul, Int.natAbs_natCast]

/-- The text of a decimal can always be read. -/
theorem toBinary?_eq_some (d : Decimal) : d.toBinary? f = some (d.toBinary f) := by
  rw [Decimal.toBinary, toBinary?_eq]
  rfl

theorem toBinary?_eq_some_iff {d : Decimal} {bits : f.Bits} :
    d.toBinary? f = some bits ↔ d.toBinary f = bits := by
  rw [toBinary?_eq_some, Option.some.injEq]

theorem toBinary_eq (d : Decimal) :
    d.toBinary f =
      f.ofCode d.isNegative (f.nearest d.written.magnitude.natAbs (-d.written.scale)) :=
  f.toBinary?_eq_some_iff.mp (f.toBinary?_eq d)

/-- The bits in terms of the value. -/
theorem exists_toBinary_eq (d : Decimal) :
    ∃ c, RoundsTo f (|d.value| * 2 ^ f.depth) c ∧
      d.toBinary f = f.ofCode (decide (d.value < 0)) (min f.infinity c) := by
  obtain ⟨c, hc, hn⟩ := f.nearest_spec d.written.magnitude.natAbs (-d.written.scale)
  rw [← Decimal.abs_value_eq, Decimal.value_written] at hc
  refine ⟨c, hc, ?_⟩
  rw [toBinary_eq, hn, Decimal.isNegative_eq]

theorem isNegative_toBinary (d : Decimal) :
    isNegative (d.toBinary f) = decide (d.value < 0) := by
  obtain ⟨c, -, hb⟩ := f.exists_toBinary_eq d
  rw [hb, isNegative_ofCode ((Nat.min_le_left _ _).trans_lt f.infinity_lt_codeCount)]

theorem exists_code_toBinary_eq (d : Decimal) :
    ∃ c, RoundsTo f (|d.value| * 2 ^ f.depth) c ∧ code (d.toBinary f) = min f.infinity c := by
  obtain ⟨c, hc, hb⟩ := f.exists_toBinary_eq d
  refine ⟨c, hc, ?_⟩
  rw [hb, code_ofCode ((Nat.min_le_left _ _).trans_lt f.infinity_lt_codeCount)]

/-- Every size is rounded to one code only, so the scale does not matter. -/
theorem toBinary_congr {d e : Decimal} (h : d.value = e.value) : d.toBinary f = e.toBinary f := by
  obtain ⟨c, hc, hd⟩ := f.exists_toBinary_eq d
  obtain ⟨c', hc', he⟩ := f.exists_toBinary_eq e
  rw [h] at hc
  rw [hd, he, h, hc.unique hc']

theorem code_toBinary_eq_infinity_iff (d : Decimal) :
    code (d.toBinary f) = f.infinity ↔ f.overflow ≤ |d.value| := by
  obtain ⟨c, hc, hcode⟩ := f.exists_code_toBinary_eq d
  rw [hcode, ← overflow_le_iff, ← f.le_infinity_iff hc]
  omega

theorem code_toBinary_eq_zero_iff (d : Decimal) :
    code (d.toBinary f) = 0 ↔ |d.value| ≤ f.underflow := by
  obtain ⟨c, hc, hcode⟩ := f.exists_code_toBinary_eq d
  have hpos := f.infinity_pos
  rw [hcode, ← le_underflow_iff, ← hc.le_iff_of_even rfl]
  omega

theorem isNearest_toBinary {d : Decimal} (h : |d.value| < f.overflow) :
    IsNearest d.value (d.toBinary f) := by
  obtain ⟨c, hc, hcode⟩ := f.exists_code_toBinary_eq d
  have hlt : c < f.infinity := by
    rw [← not_le, f.le_infinity_iff hc, overflow_le_iff, not_le]
    exact h
  rw [Nat.min_eq_right hlt.le] at hcode
  rw [← hcode] at hc hlt
  exact isNearest_of_roundsTo hlt (f.isNegative_toBinary d) hc

theorem toBinary_of_zero {d : Decimal} (h : d.value = 0) : d.toBinary f = 0 := by
  have hz : Decimal.zero.value = 0 := by rw [Decimal.zero, Decimal.value_ofInt, Int.cast_zero]
  rw [f.toBinary_congr (h.trans hz.symm), toBinary_eq]
  cases f <;> decide

end BinaryFormat

namespace Decimal

open BinaryFormat (IsNearest code)

/-- A decimal is always converted. Between the ends of a format it becomes its nearest finite number,
and at or past an end it becomes infinity or zero; the sign is kept, except that zero has none. Only
the value counts, so that the text of a decimal is as good as the decimal. The single format is not
reached through the double one: there are decimals for which that would be another number. -/
theorem toBinary_correctly_rounded :
    (∀ (f : BinaryFormat) (d : Decimal),
      d.toBinary? f = some (d.toBinary f) ∧
      BinaryFormat.isNegative (d.toBinary f) = decide (d.value < 0) ∧
      (|d.value| < f.overflow → IsNearest d.value (d.toBinary f)) ∧
      (code (d.toBinary f) = f.infinity ↔ f.overflow ≤ |d.value|) ∧
      (code (d.toBinary f) = 0 ↔ |d.value| ≤ f.underflow) ∧
      (d.value = 0 → d.toBinary f = 0) ∧
      (∀ e : Decimal, d.value = e.value → d.toBinary f = e.toBinary f) ∧
      (ofText d.toText).map (toBinary f) = .ok (d.toBinary f)) ∧
    ∃ d e : Decimal, ofBinary (d.toBinary .double) = .ok e ∧
      e.toBinary .single ≠ d.toBinary .single := by
  refine ⟨?_, ⟨100000005960464477539062500001, 29, by decide⟩,
    ⟨1000000059604644775390625, 24, by decide⟩, by decide +kernel, by decide +kernel⟩
  intro f d
  refine ⟨f.toBinary?_eq_some d, f.isNegative_toBinary d, f.isNearest_toBinary,
    f.code_toBinary_eq_infinity_iff d, f.code_toBinary_eq_zero_iff d, f.toBinary_of_zero,
    fun _ => f.toBinary_congr, ?_⟩
  rw [ofText_toText_eq, ← f.toBinary_congr d.value_written]
  rfl

/-- A number below the least positive single, at two scales, and a zero with places. -/
theorem toBinary_correctly_rounded_below_least :
    |(⟨-1, 45, by decide⟩ : Decimal).value| < BinaryFormat.single.overflow ∧
    IsNearest (⟨-1, 45, by decide⟩ : Decimal).value (toBinary .single ⟨-1, 45, by decide⟩) ∧
    toBinary .single ⟨-1, 45, by decide⟩ = toBinary .single ⟨-10, 46, by decide⟩ ∧
    toBinary? .double ⟨0, 7, by decide⟩ = some 0 := by
  have hlt : |(⟨-1, 45, by decide⟩ : Decimal).value| < BinaryFormat.single.overflow := by
    rw [abs_value_eq]
    norm_num [BinaryFormat.overflow]
  have hv : (⟨-1, 45, by decide⟩ : Decimal).value = (⟨-10, 46, by decide⟩ : Decimal).value := by
    rw [value_eq_iff (s := 46) (by decide) (by decide)]
    decide
  have hz : (⟨0, 7, by decide⟩ : Decimal).value = 0 := value_eq_zero_iff.mpr rfl
  obtain ⟨-, -, hnearest, -, -, -, hcongr, -⟩ :=
    toBinary_correctly_rounded.1 .single ⟨-1, 45, by decide⟩
  obtain ⟨hsome, -, -, -, -, hzero, -⟩ := toBinary_correctly_rounded.1 .double ⟨0, 7, by decide⟩
  exact ⟨hlt, hnearest hlt, hcongr _ hv, hsome.trans (congrArg some (hzero hz))⟩

end Decimal

end ExactDecimal
