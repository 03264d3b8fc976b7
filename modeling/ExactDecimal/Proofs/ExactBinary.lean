import ExactDecimal.Proofs.ToBinary
import Mathlib.Tactic.FieldSimp
/-!
The exact decimal of a binary number leads back to it. Cancelling twos keeps the value, the number
itself is the one that is nearest to its value, and its bits can be told from sign and code; only
the sign of zero is lost. A single number has the same exact decimal as the double number that it is
widened to, so that going through the double format makes no difference.
-/
namespace ExactDecimal

/-! ## The value of an exact decimal -/

theorem signed_mul_pow5 (negative : Bool) (m : Nat) {k depth : Nat} (h : k ≤ depth) :
    (signed negative (m * pow5 k) : ℚ) * 10 ^ (-(k : Int)) =
      signed negative (m * pow2 (depth - k)) / 2 ^ depth := by
  have hten : (10 : ℚ) ^ k = pow2 k * pow5 k := by
    rw [← cast_pow10, ← pow2_mul_pow5, Nat.cast_mul]
  have htwo : (2 : ℚ) ^ depth = pow2 (depth - k) * pow2 k := by
    rw [← cast_pow2, ← Nat.cast_mul, ← pow2_add, Nat.sub_add_cancel h]
  have h2 : (pow2 k : ℚ) ≠ 0 := Nat.cast_ne_zero.mpr (pow2_pos k).ne'
  have h2' : (pow2 (depth - k) : ℚ) ≠ 0 := Nat.cast_ne_zero.mpr (pow2_pos _).ne'
  have h5 : (pow5 k : ℚ) ≠ 0 := Nat.cast_ne_zero.mpr (pow5_pos k).ne'
  rw [signed_mul, signed_mul, zpow_neg, zpow_natCast, hten, htwo, Int.cast_mul, Int.cast_mul,
    Int.cast_natCast, Int.cast_natCast]
  field_simp

theorem cancelTwos_mul_pow2 (m j k : Nat) : cancelTwos (m * pow2 j) (k + j) = cancelTwos m k := by
  induction j with
  | zero => rw [pow2_zero, Nat.mul_one, Nat.add_zero]
  | succ j ih =>
    have heven : m * pow2 (j + 1) % 2 = 0 := by
      rw [pow2_succ, ← Nat.mul_assoc, Nat.mul_mod_left]
    have hhalf : m * pow2 (j + 1) / 2 = m * pow2 j := by
      rw [pow2_succ, ← Nat.mul_assoc, Nat.mul_div_cancel _ (by decide)]
    rw [← Nat.add_assoc, cancelTwos, if_pos heven, hhalf, ih]

namespace Decimal

theorem value_ofUnits (f : BinaryFormat) (negative : Bool) (units : Nat) :
    (ofUnits f negative units).value = signed negative units / 2 ^ f.depth := by
  have h := signed_mul_pow5 negative (cancelTwos units f.depth).1 (cancelTwos_le units f.depth)
  rw [cancelTwos_mul] at h
  exact h

end Decimal

namespace BinaryFormat

/-- The exact decimal of finite bits. -/
def exact {f : BinaryFormat} (bits : f.Bits) : Decimal :=
  Decimal.ofUnits f (isNegative bits) (f.units (code bits))

theorem ofBinary_of_finite {f : BinaryFormat} {bits : f.Bits} (h : Finite bits) :
    Decimal.ofBinary bits = .ok (exact bits) := if_pos h

@[simp] theorem value_exact {f : BinaryFormat} (bits : f.Bits) : (exact bits).value = value bits :=
  Decimal.value_ofUnits f _ _

/-! ## From the value back to the bits -/

theorem ofCode_code {f : BinaryFormat} (bits : f.Bits) :
    f.ofCode (isNegative bits) (code bits) = bits := by
  have hcode : code bits < f.codeCount := Nat.mod_lt _ (pow2_pos _)
  have hlt : bits.toNat < f.codeCount * 2 := bits.isLt.trans_eq (pow_succ _ _)
  apply BitVec.eq_of_toNat_eq
  rw [toNat_ofCode hcode]
  cases hn : isNegative bits with
  | false =>
    rw [isNegative, decide_eq_false_iff_not, not_le] at hn
    exact Nat.mod_eq_of_lt hn
  | true =>
    rw [isNegative, decide_eq_true_iff] at hn
    rw [if_pos rfl, code, Nat.mod_eq_sub_mod hn, Nat.mod_eq_of_lt (by omega)]
    omega

theorem abs_value_mul (f : BinaryFormat) (bits : f.Bits) :
    |value bits| * 2 ^ f.depth = f.units (code bits) := by
  rw [abs_value, div_mul_cancel₀ _ (pow_ne_zero _ (by decide))]

theorem value_eq_zero_iff {f : BinaryFormat} {bits : f.Bits} : value bits = 0 ↔ code bits = 0 := by
  have h := f.abs_value_mul bits
  constructor
  · intro hz
    rw [hz, abs_zero, zero_mul] at h
    have hunits : f.units (code bits) = f.units 0 := by
      rw [units_zero]
      exact_mod_cast h.symm
    exact f.units_strictMono.injective hunits
  · intro hz
    rw [hz, units_zero, Nat.cast_zero] at h
    have hpow : (2 : ℚ) ^ f.depth ≠ 0 := pow_ne_zero _ (by decide)
    exact abs_eq_zero.mp ((mul_eq_zero.mp h).resolve_right hpow)

theorem decide_value_neg {f : BinaryFormat} {bits : f.Bits} (h : code bits ≠ 0) :
    decide (value bits < 0) = isNegative bits := by
  have hne : value bits ≠ 0 := mt value_eq_zero_iff.mp h
  have hsize := size_nonneg bits
  cases hn : isNegative bits with
  | false =>
    rw [value_of_not_negative hn]
    exact decide_eq_false hsize.not_gt
  | true =>
    have hle : value bits ≤ 0 := by
      rw [value_of_negative hn]
      exact neg_nonpos.mpr hsize
    exact decide_eq_true (lt_of_le_of_ne hle hne)

/-- Zero below zero, as bits. -/
def negativeZero (f : BinaryFormat) : f.Bits := f.ofCode true 0

theorem eq_negativeZero_or_zero {f : BinaryFormat} {bits : f.Bits} (h : code bits = 0) :
    bits = f.negativeZero ∨ bits = 0 := by
  have hb := ofCode_code bits
  rw [h] at hb
  cases hn : isNegative bits with
  | false =>
    rw [hn] at hb
    exact .inr hb.symm
  | true =>
    rw [hn] at hb
    exact .inl hb.symm

/-- A decimal with the value of finite bits becomes these bits, unless they are a zero. -/
theorem toBinary_of_value {f : BinaryFormat} {bits : f.Bits} (hfin : Finite bits) {d : Decimal}
    (h : d.value = value bits) : d.toBinary f = if bits = f.negativeZero then 0 else bits := by
  obtain ⟨c, hc, hb⟩ := f.exists_toBinary_eq d
  rw [h, abs_value_mul] at hc
  -- the number itself rounds to its code, and no other code is rounded to
  have hmin : min f.infinity c = code bits := by
    rw [hc.unique (f.roundsTo_units _), Nat.min_eq_right (le_of_lt hfin)]
  rw [hmin, h] at hb
  by_cases hz : code bits = 0
  · rw [f.toBinary_of_zero (h.trans (value_eq_zero_iff.mpr hz))]
    obtain hneg | hpos := eq_negativeZero_or_zero hz
    · rw [if_pos hneg]
    · rw [hpos, ite_self]
  · have hne : bits ≠ f.negativeZero := by
      rintro rfl
      exact hz (code_ofCode (pow2_pos _))
    rw [hb, decide_value_neg hz, ofCode_code, if_neg hne]

theorem toBinary?_of_value {f : BinaryFormat} {bits : f.Bits} (hfin : Finite bits) {d : Decimal}
    (h : d.value = value bits) :
    d.toBinary? f = some (if bits = f.negativeZero then 0 else bits) :=
  f.toBinary?_eq_some_iff.mpr (toBinary_of_value hfin h)

/-! ## From the single format to the double one -/

/-- The code that a finite single number has as a double one. Its leading one is moved up to the
hidden bit, and the shift makes up for that move and for the different depths. -/
def widenCode (code : Nat) : Nat :=
  let significand := single.significand code
  let leading := Nat.log2 significand
  if code = 0 then 0
  else
    (single.shift code + leading + 873) * pow2 double.fractionBits +
      significand * pow2 (double.fractionBits - leading)

/-- A finite single number in the double format. -/
def widen (bits : Bits single) : Bits double :=
  double.ofCode (isNegative bits) (widenCode (code bits))

theorem significand_ne_zero {f : BinaryFormat} {c : Nat} (h : c ≠ 0) : f.significand c ≠ 0 := by
  intro hz
  have hcode := f.code_eq c
  have hpos := pow2_pos f.fractionBits
  rw [hz] at hcode
  obtain hs | hs := f.significand_normal c
  · rw [hs, Nat.zero_mul] at hcode
    omega
  · omega

/-- A leading one that is moved up to a given place is the hidden bit there. -/
theorem moved_up {m place : Nat} (hm : m ≠ 0) (h : m < 2 * pow2 place) :
    Nat.log2 m ≤ place ∧ pow2 place ≤ m * pow2 (place - Nat.log2 m) ∧
      m * pow2 (place - Nat.log2 m) < 2 * pow2 place := by
  have hlower : pow2 (Nat.log2 m) ≤ m := Nat.log2_self_le hm
  have hupper : m < pow2 (Nat.log2 m + 1) := Nat.lt_log2_self
  have hle : Nat.log2 m ≤ place := by
    rw [Nat.mul_comm, ← pow2_succ] at h
    exact Nat.le_of_lt_succ ((Nat.pow_lt_pow_iff_right (by decide)).mp (hlower.trans_lt h))
  have hpos := pow2_pos (place - Nat.log2 m)
  have hplace : pow2 place = pow2 (Nat.log2 m) * pow2 (place - Nat.log2 m) := by
    rw [← pow2_add, Nat.add_sub_cancel' hle]
  refine ⟨hle, ?_, ?_⟩
  · rw [hplace]
    exact Nat.mul_le_mul_right _ hlower
  · rw [hplace, ← Nat.mul_assoc, Nat.mul_comm 2, ← pow2_succ]
    exact Nat.mul_lt_mul_of_pos_right hupper hpos

/-- The depths of the formats are 925 places apart. -/
theorem units_widenCode (c : Nat) : double.units (widenCode c) = single.units c * pow2 925 := by
  rw [widenCode]
  by_cases hc : c = 0
  · rw [if_pos hc, hc, units_zero, units_zero, Nat.zero_mul]
  · have hlt : single.significand c < 2 * pow2 double.fractionBits :=
      (single.significand_lt c).trans (by decide)
    obtain ⟨hle, hlower, hupper⟩ := moved_up (significand_ne_zero hc) hlt
    have hshift : double.fractionBits - Nat.log2 (single.significand c) +
        (single.shift c + Nat.log2 (single.significand c) + 873) = single.shift c + 925 := by
      have : double.fractionBits = 52 := rfl
      omega
    rw [if_neg hc, units_add hupper (.inr hlower), Nat.mul_assoc, ← pow2_add, hshift, pow2_add,
      ← Nat.mul_assoc, units]

theorem widenCode_lt {c : Nat} (h : c < single.infinity) : widenCode c < double.infinity := by
  have hunits := single.units_strictMono h
  have hinf : single.units single.infinity * pow2 925 ≤ double.units double.infinity := by
    decide +kernel
  rw [← double.units_strictMono.lt_iff_lt, units_widenCode]
  exact (Nat.mul_lt_mul_of_pos_right hunits (pow2_pos 925)).trans_le hinf

theorem code_widen {bits : Bits single} (h : Finite bits) :
    code (widen bits) = widenCode (code bits) :=
  code_ofCode ((widenCode_lt h).trans double.infinity_lt_codeCount)

theorem isNegative_widen {bits : Bits single} (h : Finite bits) :
    isNegative (widen bits) = isNegative bits :=
  isNegative_ofCode ((widenCode_lt h).trans double.infinity_lt_codeCount)

theorem finite_widen {bits : Bits single} (h : Finite bits) : Finite (widen bits) := by
  rw [Finite, code_widen h]
  exact widenCode_lt h

theorem exact_widen {bits : Bits single} (h : Finite bits) : exact (widen bits) = exact bits := by
  have hdepth : double.depth = single.depth + 925 := rfl
  rw [exact, exact, code_widen h, isNegative_widen h, units_widenCode]
  simp only [Decimal.ofUnits, hdepth, cancelTwos_mul_pow2]

theorem value_widen {bits : Bits single} (h : Finite bits) : value (widen bits) = value bits := by
  rw [← value_exact, exact_widen h, value_exact]

theorem widen_eq_negativeZero_iff {bits : Bits single} (h : Finite bits) :
    widen bits = double.negativeZero ↔ bits = single.negativeZero := by
  constructor
  · intro hw
    have hcode : code (widen bits) = 0 := by rw [hw]; decide
    have hz : code bits = 0 := by
      rwa [← value_eq_zero_iff, ← value_widen h, value_eq_zero_iff]
    refine (eq_negativeZero_or_zero hz).resolve_right ?_
    rintro rfl
    exact absurd hw (by decide)
  · rintro rfl
    decide

end BinaryFormat

namespace Decimal

open BinaryFormat (Finite widen negativeZero)

/-- Finite bits are got back from their exact decimal. That of a single number is also that of the
double number with its value, which is what it becomes in the double format. The one exception is
a zero below zero, which comes back without its sign. -/
theorem toBinary_inverts_ofBinary :
    (∀ (f : BinaryFormat) (bits : f.Bits), Finite bits →
      ∃ d, ofBinary bits = .ok d ∧
        d.toBinary? f = some (if bits = f.negativeZero then 0 else bits)) ∧
    ∀ bits : BinaryFormat.single.Bits, Finite bits →
      Finite (widen bits) ∧ BinaryFormat.value (widen bits) = BinaryFormat.value bits ∧
      ∃ d, ofBinary bits = .ok d ∧ ofBinary (widen bits) = .ok d ∧
        d.toBinary? .double =
          some (if bits = BinaryFormat.single.negativeZero then 0 else widen bits) := by
  refine ⟨?_, ?_⟩
  · intro f bits h
    exact ⟨_, BinaryFormat.ofBinary_of_finite h,
      BinaryFormat.toBinary?_of_value h (BinaryFormat.value_exact bits)⟩
  · intro bits h
    have hfin := BinaryFormat.finite_widen h
    have hvalue := BinaryFormat.value_widen h
    refine ⟨hfin, hvalue, _, BinaryFormat.ofBinary_of_finite h, ?_, ?_⟩
    · rw [BinaryFormat.ofBinary_of_finite hfin, BinaryFormat.exact_widen h]
    · have hback := BinaryFormat.toBinary?_of_value hfin
        ((BinaryFormat.value_exact bits).trans hvalue.symm)
      rwa [if_congr (BinaryFormat.widen_eq_negativeZero_iff h) rfl rfl] at hback

/-- The largest single number, the least one below zero and its double, and a zero below zero. -/
theorem toBinary_inverts_ofBinary_at_ends :
    (Finite (BinaryFormat.single.ofCode false 2139095039) ∧
      ∃ d, ofBinary (BinaryFormat.single.ofCode false 2139095039) = .ok d ∧
        d.toBinary? .single = some (BinaryFormat.single.ofCode false 2139095039)) ∧
    (Finite (BinaryFormat.single.ofCode true 1) ∧
      ∃ d, ofBinary (BinaryFormat.single.ofCode true 1) = .ok d ∧
        d.toBinary? .double = some (BinaryFormat.double.ofCode true 3936146074321813504)) ∧
    (Finite BinaryFormat.double.negativeZero ∧
      ∃ d, ofBinary BinaryFormat.double.negativeZero = .ok d ∧ d.toBinary? .double = some 0) := by
  have hlargest : Finite (BinaryFormat.single.ofCode false 2139095039) := by decide
  have hleast : Finite (BinaryFormat.single.ofCode true 1) := by decide
  have hzero : Finite BinaryFormat.double.negativeZero := by decide
  obtain ⟨-, -, d, hd, -, hwide⟩ := toBinary_inverts_ofBinary.2 _ hleast
  exact ⟨⟨hlargest, toBinary_inverts_ofBinary.1 .single _ hlargest⟩, ⟨hleast, d, hd, hwide⟩,
    ⟨hzero, toBinary_inverts_ofBinary.1 .double _ hzero⟩⟩

end Decimal

end ExactDecimal
