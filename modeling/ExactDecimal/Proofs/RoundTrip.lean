import ExactDecimal.Text
import ExactDecimal.Proofs.Reading
/-!
The text of a decimal is read back without loss. A scale that is not negative comes back as it was;
below zero the zeros have been written out, and the same value comes back at scale zero. A leading
zero is printed only to have a digit before the point, so it never changes the number.
-/
namespace ExactDecimal

open Text

/-- Text without sign and exponent that spells `n` once the point is left out, with so many digits
behind the point. -/
def Spells (text : List Char) (n places : Nat) : Prop :=
  ∃ f : Figures, f.chars = text ∧ f.number = n ∧ f.places = places

theorem spells_of_digits {digits : List Char} (h : Digits digits) (hne : digits ≠ []) :
    Spells digits (ofNumeral digits) 0 := by
  have hd : digits ++ Option.getD none [] = digits := List.append_nil digits
  refine ⟨⟨digits, none, hd.symm ▸ h, hd.symm ▸ hne⟩, Figures.chars_of_none rfl, ?_, rfl⟩
  rw [Figures.number, hd]

theorem spells_append_zeros {digits : List Char} (h : Digits digits) (hne : digits ≠ []) (k : Nat) :
    Spells (digits ++ List.replicate k '0') (ofNumeral digits * pow10 k) 0 := by
  rw [← ofNumeral_append_zeros]
  exact spells_of_digits (h.append (digits_replicate_zero k))
    (List.append_ne_nil_of_left_ne_nil hne _)

theorem spells_of_point {whole fraction : List Char} (h : Digits (whole ++ fraction))
    (hne : whole ++ fraction ≠ []) :
    Spells (whole ++ '.' :: fraction) (ofNumeral (whole ++ fraction)) fraction.length :=
  ⟨⟨whole, some fraction, h, hne⟩, Figures.chars_of_some rfl, rfl, rfl⟩

/-- A point among the digits leaves their number as it is. -/
theorem spells_cut {digits : List Char} (h : Digits digits) (hne : digits ≠ []) (k : Nat) :
    Spells (digits.take k ++ '.' :: digits.drop k) (ofNumeral digits) (digits.length - k) := by
  have hcut := List.take_append_drop k digits
  have hs := spells_of_point (hcut.symm ▸ h) (hcut.symm ▸ hne)
  rwa [hcut, List.length_drop] at hs

theorem spells_insertPoint {digits : List Char} (h : Digits digits) (hne : digits ≠ [])
    (places : Nat) : Spells (insertPoint digits places) (ofNumeral digits) places := by
  by_cases hp : places = 0
  · rw [hp, insertPoint_zero]
    exact spells_of_digits h hne
  · rw [insertPoint, if_neg hp]
    have hn := ofNumeral_zeros_append (places + 1 - digits.length) digits
    generalize hz : List.replicate (places + 1 - digits.length) '0' ++ digits = padded at hn ⊢
    have hd : Digits padded := hz ▸ (digits_replicate_zero _).append h
    have hlen : places + 1 ≤ padded.length := by
      rw [← hz, List.length_append, List.length_replicate]
      omega
    have hs := spells_cut hd (List.ne_nil_of_length_pos (by omega)) (padded.length - places)
    rwa [hn, Nat.sub_sub_self (by omega)] at hs

namespace Decimal

/-- All digits are printed, and the zeros that a negative scale stands for. -/
theorem spells_digitChars (d : Decimal) :
    Spells d.digitChars (d.magnitude.natAbs * pow10 (-d.scale).toNat) d.scale.toNat := by
  have hd := digits_numeral d.magnitude.natAbs
  have hne : numeral d.magnitude.natAbs ≠ [] := Nat.toDigits_ne_nil
  rw [digitChars]
  by_cases hs : 0 ≤ d.scale
  · have hz : (-d.scale).toNat = 0 := by omega
    have h := spells_insertPoint hd hne d.scale.toNat
    rw [ofNumeral_numeral] at h
    rwa [if_pos hs, hz, pow10_zero, Nat.mul_one]
  · have hp : d.scale.toNat = 0 := by omega
    rw [if_neg hs, hp]
    by_cases hm : d.magnitude = 0
    · have h := spells_of_digits hd hne
      rw [ofNumeral_numeral, hm] at h
      rw [isZero, hm]
      simpa using h
    · have h := spells_append_zeros hd hne (-d.scale).toNat
      rw [ofNumeral_numeral] at h
      rwa [if_neg (by simpa [isZero] using hm)]

/-- A spelled number is read as it stands, behind any sign. -/
theorem ofChars_of_spells {text : List Char} {n places : Nat} (h : Spells text n places)
    (sign : Sign) {d : Decimal} (hm : d.magnitude = signed sign.isMinus n)
    (hs : d.scale = places) : ofChars (sign.chars ++ text) = .ok d := by
  obtain ⟨f, rfl, rfl, rfl⟩ := h
  have h := ofChars_eq_ok_iff (s := ⟨sign, f, none⟩) (d := d)
  rw [Spelling.chars, Spelling.body_of_none rfl, Spelling.power_of_none rfl] at h
  exact h.mpr ⟨by decide, hm, hs⟩

/-- The sign that is printed. -/
def sign (d : Decimal) : Sign := if d.isNegative then .minus else .absent

theorem sign_of_neg {d : Decimal} (h : d.magnitude < 0) : d.sign = .minus :=
  if_pos (decide_eq_true h)

theorem sign_of_nonneg {d : Decimal} (h : 0 ≤ d.magnitude) : d.sign = .absent :=
  if_neg (by simpa [isNegative] using h)

theorem isMinus_sign (d : Decimal) : d.sign.isMinus = d.isNegative :=
  Sign.isMinus_ofNegative d.isNegative

theorem toChars_eq (d : Decimal) : d.toChars = d.sign.chars ++ d.digitChars := by
  rw [toChars, sign]
  cases d.isNegative with
  | false => rfl
  | true => rfl

theorem signed_sign_natAbs (d : Decimal) :
    signed d.sign.isMinus d.magnitude.natAbs = d.magnitude := by
  by_cases h : d.magnitude < 0
  · rw [sign_of_neg h]
    change -(d.magnitude.natAbs : Int) = d.magnitude
    omega
  · rw [sign_of_nonneg (by omega)]
    change (d.magnitude.natAbs : Int) = d.magnitude
    omega

/-- The decimal that the text of `d` shows, with the zeros of a negative scale written out. -/
def written (d : Decimal) : Decimal :=
  if 0 ≤ d.scale then d else ofInt (d.magnitude * 10 ^ (-d.scale).toNat)

theorem written_of_nonneg {d : Decimal} (h : 0 ≤ d.scale) : d.written = d := if_pos h

theorem written_of_neg {d : Decimal} (h : d.scale < 0) :
    d.written = ofInt (d.magnitude * 10 ^ (-d.scale).toNat) := if_neg (by omega)

theorem scale_written (d : Decimal) : d.written.scale = d.scale.toNat := by
  by_cases h : 0 ≤ d.scale
  · rw [written_of_nonneg h, Int.toNat_of_nonneg h]
  · have hz : d.scale.toNat = 0 := by omega
    rw [written_of_neg (by omega), hz]
    rfl

theorem magnitude_written (d : Decimal) :
    d.written.magnitude = d.magnitude * pow10 (-d.scale).toNat := by
  by_cases h : 0 ≤ d.scale
  · have hz : (-d.scale).toNat = 0 := by omega
    rw [written_of_nonneg h, hz, pow10_zero, Int.natCast_one, Int.mul_one]
  · rw [written_of_neg (by omega)]
    simp [ofInt, pow10]

theorem value_written (d : Decimal) : d.written.value = d.value := by
  by_cases h : 0 ≤ d.scale
  · rw [written_of_nonneg h]
  · rw [written_of_neg (by omega), value_ofInt, value, Int.cast_mul, Int.cast_pow,
      ← zpow_natCast, Int.toNat_of_nonneg (by omega)]
    rfl

theorem ofText_toText_eq (d : Decimal) : ofText d.toText = .ok d.written := by
  rw [ofText, toList_toText, toChars_eq]
  refine ofChars_of_spells d.spells_digitChars d.sign ?_ d.scale_written
  rw [magnitude_written, signed_mul, signed_sign_natAbs]

/-- Nothing is lost in the text: reading it back gives the decimal itself, or the same value at
scale zero if the scale was negative, and among decimals whose scale is not negative the text
tells any two apart. -/
theorem ofText_toText (d : Decimal) :
    (0 ≤ d.scale → ofText d.toText = .ok d) ∧
    (d.scale < 0 → ofText d.toText = .ok (ofInt (d.magnitude * 10 ^ (-d.scale).toNat))) ∧
    (∃ e, ofText d.toText = .ok e ∧ e.value = d.value) ∧
    ∀ e : Decimal, 0 ≤ d.scale → 0 ≤ e.scale → (d.toText = e.toText ↔ d = e) := by
  refine ⟨?_, ?_, ?_, ?_⟩
  · intro h
    rw [ofText_toText_eq, written_of_nonneg h]
  · intro h
    rw [ofText_toText_eq, written_of_neg h]
  · exact ⟨d.written, d.ofText_toText_eq, d.value_written⟩
  · intro e hd he
    constructor
    · intro h
      have hr := d.ofText_toText_eq
      rw [h, ofText_toText_eq, written_of_nonneg hd, written_of_nonneg he] at hr
      exact (Except.ok.inj hr).symm
    · intro h
      rw [h]

/-- More places than digits, zeros that are not written, and two texts of equal value. -/
theorem ofText_toText_samples :
    ofText (toText ⟨-5, 3, by decide⟩) = .ok ⟨-5, 3, by decide⟩ ∧
    ofText (toText ⟨-12, -3, by decide⟩) = .ok (ofInt (-12 * 10 ^ 3)) ∧
    (toText ⟨-5, 3, by decide⟩ = toText ⟨-50, 4, by decide⟩ ↔
      (⟨-5, 3, by decide⟩ : Decimal) = ⟨-50, 4, by decide⟩) :=
  ⟨(ofText_toText ⟨-5, 3, by decide⟩).1 (by decide),
    (ofText_toText ⟨-12, -3, by decide⟩).2.1 (by decide),
    (ofText_toText ⟨-5, 3, by decide⟩).2.2.2 ⟨-50, 4, by decide⟩ (by decide) (by decide)⟩

end Decimal

end ExactDecimal
