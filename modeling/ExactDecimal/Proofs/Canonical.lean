import ExactDecimal.Proofs.Digits
import ExactDecimal.Proofs.RoundTrip
/-!
The one text of a number. Canonical texts have no zero in front that could be left out, no point
without digits behind it, no plus sign, and a minus sign only where it matters. The writer produces
nothing else, and reading a canonical text and writing it again changes no character: its digits,
with the zeros in front that the point calls for, are determined by their number and their places.
-/
namespace ExactDecimal

namespace Text

/-- Figures as numbers are usually written: zero is the only integer part that begins with a zero,
and a point has digits on both sides. -/
structure Plain extends Figures where
  whole_spec : whole = ['0'] ∨ whole ≠ [] ∧ whole.head? ≠ some '0'
  fraction_spec : fraction ≠ some []

namespace Plain

/-- The digits with the point left out. -/
def digits (p : Plain) : List Char := p.whole ++ p.fraction.getD []

theorem digits_digits (p : Plain) : Digits p.digits := p.digits_spec

theorem length_digits (p : Plain) : p.digits.length = p.whole.length + p.places := List.length_append

theorem whole_ne_nil (p : Plain) : p.whole ≠ [] := by
  obtain h | ⟨h, -⟩ := p.whole_spec
  · rw [h]
    exact List.cons_ne_nil _ _
  · exact h

theorem fraction_eq_none_iff (p : Plain) : p.fraction = none ↔ p.places = 0 := by
  have hne := p.fraction_spec
  rw [Figures.places]
  cases h : p.fraction with
  | none => simp
  | some fraction =>
    rw [h] at hne
    simpa using hne

/-- As many digits as the number has, or as the places and one digit in front of them. -/
theorem length_digits_eq_max (p : Plain) :
    p.digits.length = max (p.places + 1) (digitCount p.number) := by
  have hlen := p.length_digits
  have hpos := List.length_pos_iff.mpr p.whole_ne_nil
  obtain h | ⟨hne, hz⟩ := p.whole_spec
  · rw [h, List.length_singleton] at hlen
    have hle : digitCount p.number ≤ p.digits.length :=
      (digitCount_le_iff (by omega)).mpr (ofNumeral_lt p.digits_digits)
    omega
  · have hhead : p.digits.head? ≠ some '0' := by
      rwa [digits, List.head?_append, Option.or_of_isSome (List.isSome_head?.mpr hne)]
    have hcount : digitCount p.number = p.digits.length :=
      digitCount_ofNumeral p.digits_digits p.digits_ne_nil hhead
    omega

theorem padded_number (p : Plain) : padded p.number p.places = p.digits :=
  padded_ofNumeral p.digits_digits p.length_digits_eq_max

end Plain

end Text

open Text

/-! ## The figures that are written -/

/-- The digits before the point, when the last `places` of them stand behind it. -/
def wholeOf (n places : Nat) : List Char :=
  (padded n places).take ((padded n places).length - places)

def fractionOf (n places : Nat) : List Char :=
  (padded n places).drop ((padded n places).length - places)

theorem whole_append_fraction (n places : Nat) :
    wholeOf n places ++ fractionOf n places = padded n places := List.take_append_drop _ _

theorem length_fractionOf (n places : Nat) : (fractionOf n places).length = places := by
  have hlen := length_padded n places
  rw [fractionOf, List.length_drop]
  omega

theorem wholeOf_spec (n places : Nat) :
    wholeOf n places = ['0'] ∨ wholeOf n places ≠ [] ∧ (wholeOf n places).head? ≠ some '0' := by
  have hlen := length_padded n places
  have hpos := digitCount_pos n
  rw [wholeOf]
  by_cases hc : digitCount n ≤ places
  · -- all digits stand behind the point, and one of the zeros before it
    have hone : (padded n places).length - places = 1 := by omega
    have hzero : places + 1 - digitCount n = places - digitCount n + 1 := by omega
    rw [hone, padded, hzero, List.replicate_succ]
    exact .inl rfl
  · rw [padded_of_lt (by omega)] at hlen ⊢
    by_cases hn : n = 0
    · subst hn
      have hcount : digitCount 0 = 1 := rfl
      obtain rfl : places = 0 := by omega
      exact .inl rfl
    · refine .inr ⟨?_, ?_⟩
      · rw [← List.length_pos_iff, List.length_take]
        omega
      · rw [List.head?_take, if_neg (by omega)]
        exact head?_numeral hn

theorem fraction_getD (n places : Nat) :
    (if places = 0 then none else some (fractionOf n places)).getD [] = fractionOf n places := by
  split
  · rename_i h
    exact (List.length_eq_zero_iff.mp ((length_fractionOf n places).trans h)).symm
  · rfl

/-- The figures of a number with so many places. -/
def plainFigures (n places : Nat) : Plain where
  whole := wholeOf n places
  fraction := if places = 0 then none else some (fractionOf n places)
  digits_spec := by
    rw [fraction_getD, whole_append_fraction]
    exact digits_padded n places
  digits_ne_nil := by
    have hlen := length_padded n places
    rw [fraction_getD, whole_append_fraction, ← List.length_pos_iff]
    omega
  whole_spec := wholeOf_spec n places
  fraction_spec := by
    split
    · exact nofun
    · rename_i h
      intro he
      have hlen := length_fractionOf n places
      rw [Option.some.inj he] at hlen
      exact h hlen.symm

@[simp] theorem number_plainFigures (n places : Nat) : (plainFigures n places).number = n := by
  rw [Figures.number, plainFigures, fraction_getD, whole_append_fraction, ofNumeral_padded]

@[simp] theorem places_plainFigures (n places : Nat) : (plainFigures n places).places = places := by
  rw [Figures.places, plainFigures, fraction_getD, length_fractionOf]

theorem insertPoint_numeral (n : Nat) {places : Nat} (h : places ≠ 0) :
    insertPoint (numeral n) places = wholeOf n places ++ '.' :: fractionOf n places := if_neg h

/-- Plain figures are written as they stand, whatever digits they are made of. -/
theorem insertPoint_number (p : Plain) : insertPoint (numeral p.number) p.places = p.chars := by
  have hpad := p.padded_number
  by_cases hp : p.places = 0
  · have hnone := p.fraction_eq_none_iff.mpr hp
    have hw : p.digits = p.whole := by rw [Plain.digits, hnone, Option.getD_none, List.append_nil]
    rw [hp, insertPoint_zero, Figures.chars_of_none hnone, ← hw, ← hpad, hp,
      padded_of_lt (digitCount_pos _)]
  · obtain ⟨fraction, hsome⟩ := Option.ne_none_iff_exists'.mp (mt p.fraction_eq_none_iff.mp hp)
    have hlen := p.length_digits
    have hcut : p.digits.length - p.places = p.whole.length := by omega
    have hd : p.digits = p.whole ++ fraction := by rw [Plain.digits, hsome, Option.getD_some]
    rw [insertPoint_numeral _ hp, wholeOf, fractionOf, hpad, hcut, hd, List.take_left,
      List.drop_left, Figures.chars_of_some hsome]

/-! ## Canonical texts -/

/-- A text in canonical form. -/
structure Canonical where
  negative : Bool
  figures : Plain
  /-- The places are a possible scale. -/
  places_le : figures.places ≤ 2147483647
  /-- Zero has no sign. -/
  negative_spec : negative = true → ∃ c ∈ figures.digits, c ≠ '0'

namespace Canonical

def sign (c : Canonical) : Sign := .ofNegative c.negative

def chars (c : Canonical) : List Char := c.sign.chars ++ c.figures.chars

/-- The decimal that a canonical text shows. -/
def decimal (c : Canonical) : Decimal where
  magnitude := signed c.negative c.figures.number
  scale := c.figures.places
  scale_fits := by
    have := c.places_le
    omega

theorem isNegative_decimal (c : Canonical) : c.decimal.isNegative = c.negative := by
  rw [Decimal.isNegative, decimal]
  cases hn : c.negative with
  | false => exact decide_eq_false (not_lt.mpr (Int.natCast_nonneg _))
  | true =>
    have hne : c.figures.number ≠ 0 := by
      intro hz
      obtain ⟨d, hd, hne⟩ := c.negative_spec hn
      exact hne ((ofNumeral_eq_zero_iff c.figures.digits_digits).mp hz d hd)
    exact decide_eq_true (neg_lt_zero.mpr (Int.natCast_pos.mpr (Nat.pos_of_ne_zero hne)))

theorem ofChars_chars (c : Canonical) : Decimal.ofChars c.chars = .ok c.decimal := by
  apply Decimal.ofChars_of_spells ⟨c.figures.toFigures, rfl, rfl, rfl⟩ c.sign
  · rw [sign, Sign.isMinus_ofNegative]
    rfl
  · rfl

end Canonical

namespace Decimal

theorem digitChars_eq (d : Decimal) :
    d.digitChars =
      (plainFigures (d.magnitude.natAbs * pow10 (-d.scale).toNat) d.scale.toNat).chars := by
  rw [← insertPoint_number, number_plainFigures, places_plainFigures, digitChars]
  by_cases hs : 0 ≤ d.scale
  · have hz : (-d.scale).toNat = 0 := by omega
    rw [if_pos hs, hz, pow10_zero, Nat.mul_one]
  · have hz : d.scale.toNat = 0 := by omega
    rw [if_neg hs, hz, insertPoint_zero]
    split
    · rename_i hm
      rw [isZero_iff.mp hm, Int.natAbs_zero, Nat.zero_mul]
    · rename_i hm
      exact (numeral_mul_pow10 (Int.natAbs_ne_zero.mpr (mt isZero_iff.mpr hm)) _).symm

/-- The canonical form of the text of a decimal. -/
def canonical (d : Decimal) : Canonical where
  negative := d.isNegative
  figures := plainFigures (d.magnitude.natAbs * pow10 (-d.scale).toNat) d.scale.toNat
  places_le := by
    have := d.scale_fits
    rw [places_plainFigures]
    omega
  negative_spec := by
    intro hn
    have hm : d.magnitude < 0 := of_decide_eq_true hn
    by_contra hz
    push Not at hz
    have hzero := (ofNumeral_eq_zero_iff (Plain.digits_digits _)).mpr hz
    have hnumber : d.magnitude.natAbs * pow10 (-d.scale).toNat = 0 :=
      (number_plainFigures _ _).symm.trans hzero
    have hpos := pow10_pos (-d.scale).toNat
    obtain h | h := Nat.mul_eq_zero.mp hnumber
    · omega
    · omega

theorem chars_canonical (d : Decimal) : d.canonical.chars = d.toText.toList := by
  rw [toList_toText, toChars_eq, digitChars_eq]
  rfl

theorem toText_decimal (c : Canonical) : c.decimal.toText.toList = c.chars := by
  have hz : (-c.decimal.scale).toNat = 0 := by
    have : (0 : Int) ≤ c.decimal.scale := Int.natCast_nonneg _
    omega
  rw [toList_toText, toChars_eq, sign, c.isNegative_decimal, digitChars_eq, hz, pow10_zero,
    Nat.mul_one, ← insertPoint_number, number_plainFigures, places_plainFigures, Canonical.chars,
    ← insertPoint_number]
  have hm : c.decimal.magnitude.natAbs = c.figures.number := natAbs_signed _ _
  rw [hm]
  rfl

/-- The text of every decimal is canonical, with as many places as the scale says and a point only
if there are any; and every canonical text is read, as a decimal whose text it is. -/
theorem toText_canonical :
    (∀ d : Decimal, ∃ c : Canonical, c.chars = d.toText.toList ∧
      c.figures.places = d.scale.toNat ∧ (c.figures.fraction = none ↔ d.scale ≤ 0)) ∧
    ∀ (text : String) (c : Canonical), c.chars = text.toList →
      ∃ d, ofText text = .ok d ∧ d.toText = text := by
  refine ⟨?_, ?_⟩
  · intro d
    have hplaces : d.canonical.figures.places = d.scale.toNat := places_plainFigures _ _
    refine ⟨d.canonical, d.chars_canonical, hplaces, ?_⟩
    rw [Plain.fraction_eq_none_iff, hplaces]
    omega
  · intro text c h
    refine ⟨c.decimal, ?_, ?_⟩
    · rw [ofText, ← h, c.ofChars_chars]
    · rw [← String.toList_inj, toText_decimal, h]

/-- A zero before the point, one right behind it and one at the end. -/
def belowOne : Canonical where
  negative := true
  figures := ⟨⟨['0'], some ['0', '5', '0'], by decide, by decide⟩, by decide, by decide⟩
  places_le := by decide
  negative_spec := fun _ => ⟨'5', by decide, by decide⟩

theorem toText_canonical_belowOne :
    belowOne.chars = "-0.050".toList ∧ ∃ d, ofText "-0.050" = .ok d ∧ d.toText = "-0.050" :=
  ⟨by decide, toText_canonical.2 "-0.050" belowOne (by decide)⟩

end Decimal

end ExactDecimal
