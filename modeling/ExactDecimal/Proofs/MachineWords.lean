import ExactDecimal.Proofs.Comparison
import ExactDecimal.Proofs.Stages
/-!
Integer parts and machine words. Of the integers on the side of zero on which a value lies, its
integer part is the one that is not larger than the value in size, and by less than one smaller. A
word takes the decimals whose integer part it holds and no others, and a short word that is reached
through a longer one takes the same ones. So an integer that a word holds can be brought to any
number of places and comes back from there.
-/
namespace ExactDecimal

/-! ## Integer parts -/

/-- Whether `n` is the integer part of `x`, cut off toward zero. -/
structure IsIntegerPart (x : ℚ) (n : Int) : Prop where
  le : |(n : ℚ)| ≤ |x|
  lt : |x| < |(n : ℚ)| + 1
  same_side : 0 ≤ n * x

theorem isIntegerPart_neg {x : ℚ} {n : Int} : IsIntegerPart (-x) (-n) ↔ IsIntegerPart x n := by
  have hx : |-x| = |x| := abs_neg x
  have hn : |((-n : Int) : ℚ)| = |(n : ℚ)| := by rw [Int.cast_neg, abs_neg]
  have hs : ((-n : Int) : ℚ) * -x = n * x := by rw [Int.cast_neg, neg_mul_neg]
  constructor
  · rintro ⟨hle, hlt, hside⟩
    exact ⟨by rwa [hn, hx] at hle, by rwa [hn, hx] at hlt, by rwa [hs] at hside⟩
  · rintro ⟨hle, hlt, hside⟩
    exact ⟨by rwa [hn, hx], by rwa [hn, hx], by rwa [hs]⟩

theorem isIntegerPart_iff_of_nonneg {x : ℚ} (hx : 0 ≤ x) {n : Int} :
    IsIntegerPart x n ↔ n = ⌊x⌋ := by
  constructor
  · rintro ⟨hle, hlt, hside⟩
    have h0 : (0 : ℚ) ≤ n := by
      obtain rfl | hpos := hx.eq_or_lt
      · exact (abs_nonpos_iff.mp (hle.trans_eq abs_zero)).ge
      · exact nonneg_of_mul_nonneg_left hside hpos
    rw [abs_of_nonneg h0, abs_of_nonneg hx] at hle hlt
    exact (Int.floor_eq_iff.mpr ⟨hle, hlt⟩).symm
  · rintro rfl
    have h0 : (0 : ℚ) ≤ ⌊x⌋ := Int.cast_nonneg (Int.floor_nonneg.mpr hx)
    refine ⟨?_, ?_, mul_nonneg h0 hx⟩
    · rw [abs_of_nonneg h0, abs_of_nonneg hx]
      exact Int.floor_le x
    · rw [abs_of_nonneg h0, abs_of_nonneg hx]
      exact Int.lt_floor_add_one x

namespace Decimal

theorem truncate_eq_iff {d : Decimal} {n : Int} : d.truncate = n ↔ IsIntegerPart d.value n := by
  rw [truncate_eq]
  split
  · rename_i hd
    rw [isIntegerPart_iff_of_nonneg hd, eq_comm]
  · rename_i hd
    rw [← isIntegerPart_neg, isIntegerPart_iff_of_nonneg (by linarith), Int.floor_neg, neg_inj,
      eq_comm]

theorem truncate_of_small {d : Decimal} (hl : -1 < d.value) (hu : d.value < 1) :
    d.truncate = 0 := by
  rw [truncate_eq_iff]
  refine ⟨?_, ?_, ?_⟩
  · rw [Int.cast_zero, abs_zero]
    exact abs_nonneg _
  · rw [Int.cast_zero, abs_zero, zero_add]
    exact abs_lt.mpr ⟨hl, hu⟩
  · rw [Int.cast_zero, zero_mul]

end Decimal

/-! ## Words -/

namespace WordType

variable {w : WordType} {n : Int}

theorem holds_zero (w : WordType) : w.Holds 0 := by
  constructor
  · rw [least]
    split <;> omega
  · exact Int.natCast_pos.mpr (pow2_pos _)

/-- The word through which conversions to `w` go. Of each kind there is one word of 64 bits for all
shorter ones, and a longer one is its own. -/
def carrier (w : WordType) : WordType := ⟨w.isSigned, max w.bits 64⟩

theorem Holds.carrier (h : w.Holds n) : w.carrier.Holds n := by
  have hmono {j k : Nat} (hjk : j ≤ k) : (pow2 j : Int) ≤ pow2 k :=
    Int.ofNat_le.mpr (Nat.pow_le_pow_right (by decide) hjk)
  obtain ⟨isSigned, bits⟩ := w
  obtain ⟨hl, hu⟩ := h
  have hbits : bits ≤ max bits 64 := le_max_left bits 64
  cases isSigned with
  | false => exact ⟨hl, hu.trans_le (hmono hbits)⟩
  | true =>
    have hsize := hmono (Nat.sub_le_sub_right hbits 1)
    exact ⟨(Int.neg_le_neg hsize).trans hl, hu.trans_le hsize⟩

end WordType

namespace Decimal

/-- Conversion through the carrier, from which the word takes what it holds. -/
def toWordByCarrier? (d : Decimal) (w : WordType) : Option Int :=
  (d.toWord? w.carrier).bind fun n => if w.Holds n then some n else none

theorem toWordByCarrier?_eq (d : Decimal) (w : WordType) : d.toWordByCarrier? w = d.toWord? w := by
  rw [toWordByCarrier?]
  by_cases h : w.Holds d.truncate
  · rw [toWord?, if_pos h.carrier, Option.bind_some, toWord?]
  · rw [toWord?, toWord?, if_neg h]
    split
    · exact if_neg h
    · rfl

theorem withScale_of_isExactAt {d : Decimal} {s : Int} (h0 : 0 ≤ s) (hs : ScaleFits s)
    (hx : IsExactAt d.value s) : ∃ q, d.withScale s = .ok q ∧ q.scale = s ∧ q.value = d.value := by
  obtain ⟨q, hq⟩ := (exists_withScale_iff d h0 hs).mpr hx
  obtain ⟨hscale, hr⟩ := (withScaleRound_eq_ok_iff h0 hs).mp hq
  exact ⟨q, hq, hscale, (RoundingMode.roundsAt_iff_of_exact hx).mp hr⟩

/-- An integer can be written at any number of places, and has itself for its integer part there. -/
theorem withScale_ofInt (n : Int) {s : Int} (h0 : 0 ≤ s) (hs : ScaleFits s) :
    ∃ q, (ofInt n).withScale s = .ok q ∧ q.scale = s ∧ q.truncate = n := by
  have hx : IsExactAt (ofInt n).value s := (isExactAt_value (ofInt n)).mono h0
  obtain ⟨q, hq, hscale, hv⟩ := withScale_of_isExactAt h0 hs hx
  refine ⟨q, hq, hscale, ?_⟩
  rw [truncate_eq, hv, ← truncate_eq, truncate_ofInt]

/-- A decimal is truncated to the integer part of its value. A word of any kind and length takes
that integer if and only if it holds it, by way of its carrier as well as directly; so it takes a
value of less than one in size as zero, and an unsigned word does so below zero too. An integer that
a word holds, written at any scale that is not negative, comes back from there. -/
theorem integer_parts_and_words :
    (∀ (d : Decimal) (n : Int), d.truncate = n ↔ IsIntegerPart d.value n) ∧
    (∀ (d : Decimal) (w : WordType),
      (∀ n, d.toWord? w = some n ↔ w.Holds n ∧ IsIntegerPart d.value n) ∧
      d.toWordByCarrier? w = d.toWord? w ∧
      (-1 < d.value → d.value < 1 → d.toWord? w = some 0)) ∧
    (∀ (w : WordType) (n s : Int), w.Holds n → 0 ≤ s → ScaleFits s →
      ∃ q, (ofInt n).withScale s = .ok q ∧ q.scale = s ∧ q.toWord? w = some n) := by
  refine ⟨fun _ _ => truncate_eq_iff, fun d w => ⟨fun n => ?_, ?_, ?_⟩, ?_⟩
  · rw [toWord?_eq_some_iff, truncate_eq_iff, and_comm]
  · exact toWordByCarrier?_eq d w
  · intro hl hu
    exact toWord?_eq_some_iff.mpr ⟨truncate_of_small hl hu, w.holds_zero⟩
  · intro w n s hn h0 hs
    obtain ⟨q, hq, hscale, ht⟩ := withScale_ofInt n h0 hs
    exact ⟨q, hq, hscale, toWord?_eq_some_iff.mpr ⟨ht, hn⟩⟩

/-- `-0.9` as an unsigned byte, and the least signed byte by way of two places. -/
theorem integer_parts_and_words_of_bytes :
    toWord? ⟨-9, 1, by decide⟩ (.unsigned 8) = some 0 ∧
    ∃ q, (ofInt (-128)).withScale 2 = .ok q ∧ q.scale = 2 ∧
      q.toWord? (.twosComplement 8) = some (-128) := by
  constructor
  · have hl : -1 < value ⟨-9, 1, by decide⟩ := by norm_num [value]
    have hu : value ⟨-9, 1, by decide⟩ < 1 := by norm_num [value]
    exact (integer_parts_and_words.2.1 _ (.unsigned 8)).2.2 hl hu
  · have hheld : (WordType.twosComplement 8).Holds (-128) := by decide
    exact integer_parts_and_words.2.2 _ (-128) 2 hheld (by decide) (by decide)

/-- The first values past the bytes on either side. -/
example : toWord? ⟨2559, 1, by decide⟩ (.unsigned 8) = some 255 ∧
    toWord? ⟨256, 0, by decide⟩ (.unsigned 8) = none ∧
    toWord? ⟨-1289, 1, by decide⟩ (.twosComplement 8) = some (-128) ∧
    toWord? ⟨-129, 0, by decide⟩ (.twosComplement 8) = none := by decide

end Decimal

end ExactDecimal
