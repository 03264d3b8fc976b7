import ExactDecimal.Proofs.Digits
import ExactDecimal.Proofs.ShortestPoint
/-!
The shortest decimal of a binary number leads back to it, has the fewest significant digits of all
decimals that do, and is the nearest of those with as many. Sign and size of a decimal decide to
which bits it leads back, and its significant digits alone have the same size at another exponent,
so that every such decimal is a point of some grid in the rounding interval. The printed text, of
which the decimal is made, leads back too, and even to the sign of a zero.
-/
namespace ExactDecimal

namespace BinaryFormat

variable {f : BinaryFormat}

/-- Bits of an integer have a multiple of the units that one has. -/
theorem exists_value_eq_iff {bits : f.Bits} :
    (∃ n : Int, value bits = n) ↔ pow2 f.depth ∣ f.units (code bits) := by
  have hpow : (pow2 f.depth : Int) ≠ 0 := Int.natCast_ne_zero.mpr (pow2_pos _).ne'
  rw [← natAbs_signed (isNegative bits) (f.units (code bits)), ← Int.natCast_dvd,
    dvd_iff_exists_cast_div hpow, Int.cast_natCast, cast_pow2]
  rfl

/-! ## Reading back -/

/-- Which decimals become given finite bits. -/
theorem toBinary_eq_iff {bits : f.Bits} (hfin : Finite bits) {d : Decimal} :
    d.toBinary f = bits ↔ isNegative bits = decide (d.value < 0) ∧
      RoundsTo f (f.decimalUnits d.magnitude.natAbs (-d.scale)) (code bits) := by
  rw [decimalUnits, ← Decimal.abs_value_eq]
  constructor
  · rintro rfl
    obtain ⟨c, hc, hcode⟩ := f.exists_code_toBinary_eq d
    have hlt : code (d.toBinary f) < f.infinity := hfin
    have heq : code (d.toBinary f) = c := by omega
    exact ⟨f.isNegative_toBinary d, heq ▸ hc⟩
  · rintro ⟨hsign, hround⟩
    obtain ⟨c, hc, hb⟩ := f.exists_toBinary_eq d
    rw [hb, hc.unique hround, ← hsign, Nat.min_eq_right (le_of_lt hfin), ofCode_code]

/-- The distance of such a decimal from the number. -/
theorem abs_sub_value_of_toBinary {bits : f.Bits} {d : Decimal} (h : d.toBinary f = bits) :
    |d.value - value bits| =
      |f.decimalUnits d.magnitude.natAbs (-d.scale) - f.units (code bits)| / 2 ^ f.depth := by
  have hsign : isNegative bits = decide (d.value < 0) := h ▸ f.isNegative_toBinary d
  rw [abs_sub_value_of_sign hsign, Decimal.abs_value_eq, decimalUnits]

end BinaryFormat

namespace Decimal

open BinaryFormat (Finite RoundsTo ShortestPoint code decimalUnits toBinary_eq_iff
  toBinary?_eq_some_iff ne_zero_of_roundsTo)

/-- How many digits the magnitude has, zeros at its end not counted. -/
def significantDigits (d : Decimal) : Nat := (significant (numeral d.magnitude.natAbs)).length

/-- No decimal that becomes the same bits has fewer significant digits, and none that has as many is
nearer to the number. -/
structure IsShortest {f : BinaryFormat} (bits : f.Bits) (d : Decimal) : Prop where
  fewest : ∀ e : Decimal, e.toBinary? f = some bits → d.significantDigits ≤ e.significantDigits
  nearest : ∀ e : Decimal, e.toBinary? f = some bits → e.significantDigits = d.significantDigits →
    |d.value - BinaryFormat.value bits| ≤ |e.value - BinaryFormat.value bits|

/-- The significant digits alone have the size of the decimal at another exponent. -/
theorem exists_decimalUnits_eq (f : BinaryFormat) {d : Decimal} (h : d.magnitude ≠ 0) :
    ∃ n e, f.decimalUnits d.magnitude.natAbs (-d.scale) = f.decimalUnits n e ∧
      digitCount n = d.significantDigits := by
  obtain ⟨n, k, hn, hcount⟩ := exists_numeral_significant (Int.natAbs_ne_zero.mpr h)
  refine ⟨n, k + -d.scale, ?_, hcount⟩
  rw [decimalUnits, decimalUnits, hn, Nat.cast_mul, cast_pow10_zpow, zpow_add₀ (by decide),
    mul_assoc (n : ℚ)]

/-- A decimal that leads back to the bits, as a number of the interval. -/
theorem exists_roundsTo_of_toBinary {f : BinaryFormat} {bits : f.Bits} (hfin : Finite bits) {j : Nat}
    (hj : code bits = j + 1) {d : Decimal} (h : d.toBinary f = bits) :
    ∃ n e, f.decimalUnits d.magnitude.natAbs (-d.scale) = f.decimalUnits n e ∧
      RoundsTo f (f.decimalUnits n e) (j + 1) ∧ digitCount n = d.significantDigits := by
  have hround := ((toBinary_eq_iff hfin).mp h).2
  rw [hj] at hround
  obtain ⟨n, e, hn, hcount⟩ := exists_decimalUnits_eq f
    (Int.natAbs_ne_zero.mp (ne_zero_of_roundsTo hround))
  exact ⟨n, e, hn, hn ▸ hround, hcount⟩

/-! ## Points of grids as decimals -/

theorem decide_signed_neg (negative : Bool) {n : Nat} (h : n ≠ 0) :
    decide (signed negative n < 0) = negative := by
  cases negative with
  | false => exact decide_eq_false (Int.natCast_nonneg n).not_gt
  | true =>
    have hn : (0 : Int) < n := Int.natCast_pos.mpr (Nat.pos_of_ne_zero h)
    exact decide_eq_true (Int.neg_neg_of_pos hn)

section GridPoint

variable (f : BinaryFormat) (negative : Bool) {p : Nat} (k : Nat)

theorem decimalUnits_ofGridPoint (p : Nat) :
    f.decimalUnits (ofGridPoint f negative p k).magnitude.natAbs
      (-(ofGridPoint f negative p k).scale) = f.decimalUnits p (k - f.depth) := by
  rw [decimalUnits, decimalUnits, ← abs_value_eq, value_ofGridPoint, abs_mul,
    abs_of_pos (ten_zpow_pos _), ← Int.cast_abs, Int.abs_eq_natAbs, natAbs_signed, Int.cast_natCast]

theorem decide_value_ofGridPoint_neg (hp : p ≠ 0) :
    decide ((ofGridPoint f negative p k).value < 0) = negative := by
  rw [← isNegative_eq]
  exact decide_signed_neg negative (Nat.mul_ne_zero hp (pow10_pos _).ne')

theorem significantDigits_ofGridPoint_le (hp : p ≠ 0) :
    (ofGridPoint f negative p k).significantDigits ≤ digitCount p := by
  rw [significantDigits, ofGridPoint, natAbs_signed]
  exact length_significant_mul_pow10_le hp _

variable {k}

theorem scale_ofGridPoint_of_le (p : Nat) (h : f.depth ≤ k) :
    (ofGridPoint f negative p k).scale = 0 := congrArg Int.ofNat (Nat.sub_eq_zero_of_le h)

theorem ten_dvd_ofGridPoint_iff (h : k ≤ f.depth) :
    10 ∣ (ofGridPoint f negative p k).magnitude ↔ 10 ∣ p := by
  have hm : (ofGridPoint f negative p k).magnitude.natAbs = p := by
    rw [ofGridPoint, natAbs_signed, Nat.sub_eq_zero_of_le h, pow10_zero, Nat.mul_one]
  have hten : (10 : Int) ∣ (ofGridPoint f negative p k).magnitude ↔
      10 ∣ (ofGridPoint f negative p k).magnitude.natAbs := Int.natCast_dvd (m := 10)
  rw [hten, hm]

end GridPoint

/-! ## The shortest decimal -/

section Found

variable {f : BinaryFormat} {bits : f.Bits}

theorem ofBinaryShortest_of_not_finite (h : ¬ Finite bits) :
    ofBinaryShortest bits = .error .notFinite := if_neg h

theorem exists_ofBinaryShortest_eq (hfin : Finite bits) {j : Nat} (hj : code bits = j + 1) :
    ∃ p k : Nat, ofBinaryShortest bits = .ok (ofGridPoint f (BinaryFormat.isNegative bits) p k) ∧
      ShortestPoint f (j + 1) p (k - f.depth) := by
  have hlt : code bits < f.infinity := hfin
  have hd := ofBinaryShortest_of_ne_zero hfin (by omega)
  rw [hj] at hd hlt
  exact ⟨_, _, hd, f.shortestPoint_coarsest hlt⟩

variable {j p k : Nat} (hfin : Finite bits) (hj : code bits = j + 1)
  (h : ShortestPoint f (j + 1) p (k - f.depth))

include hfin hj h

theorem toBinary_ofGridPoint :
    (ofGridPoint f (BinaryFormat.isNegative bits) p k).toBinary f = bits := by
  rw [toBinary_eq_iff hfin, decimalUnits_ofGridPoint, hj,
    decide_value_ofGridPoint_neg f _ k (ne_zero_of_roundsTo h.rounds)]
  exact ⟨rfl, h.rounds⟩

theorem isShortest_ofGridPoint :
    IsShortest bits (ofGridPoint f (BinaryFormat.isNegative bits) p k) := by
  have hback := toBinary_ofGridPoint hfin hj h
  have hp := significantDigits_ofGridPoint_le f (BinaryFormat.isNegative bits) k
    (ne_zero_of_roundsTo h.rounds)
  constructor
  · intro e he
    rw [toBinary?_eq_some_iff] at he
    obtain ⟨n, i, -, hround, hcount⟩ := exists_roundsTo_of_toBinary hfin hj he
    calc
      _ ≤ digitCount p := hp
      _ ≤ digitCount n := h.digitCount_le hround
      _ = e.significantDigits := hcount
  · intro e he hd
    rw [toBinary?_eq_some_iff] at he
    obtain ⟨n, i, hn, hround, hcount⟩ := exists_roundsTo_of_toBinary hfin hj he
    have hle := h.digitCount_le hround
    have hnear := h.nearest_of_digitCount_eq hround (by omega)
    rw [← decimalUnits_ofGridPoint f (BinaryFormat.isNegative bits), ← hn, ← hj] at hnear
    rw [BinaryFormat.abs_sub_value_of_toBinary hback, BinaryFormat.abs_sub_value_of_toBinary he]
    exact div_le_div_of_nonneg_right hnear (by positivity)

end Found

/-- The printed text of finite bits is read as these bits. -/
theorem ofText?_toText {f : BinaryFormat} {bits : f.Bits} (hfin : Finite bits) :
    f.ofText? (BinaryFormat.toText bits) = some bits := by
  have htext := congrArg String.ofList (BinaryFormat.toList_toText bits)
  rw [String.ofList_toList] at htext
  rw [htext]
  by_cases hz : code bits = 0
  · have hnearest : f.nearest 0 (-(0 : Nat)) = code bits := by
      rw [BinaryFormat.nearest, if_pos (.inl rfl), hz]
    rw [hz, f.ofText?_of_spells (spells_printCode_zero f), Text.Sign.isMinus_ofNegative, hnearest,
      BinaryFormat.ofCode_code]
  · obtain ⟨j, hj⟩ := Nat.exists_eq_add_one_of_ne_zero hz
    have hlt : j + 1 < f.infinity := hj ▸ hfin
    have h := f.shortestPoint_coarsest hlt
    -- the decimal of the point leads back to the bits, and its text has the same digits
    have hback := toBinary_ofGridPoint hfin hj h
    rw [BinaryFormat.toBinary_eq, written_of_nonneg (Int.natCast_nonneg _), isNegative_eq,
      decide_value_ofGridPoint_neg f _ _ (ne_zero_of_roundsTo h.rounds), ofGridPoint,
      natAbs_signed] at hback
    rw [hj, f.ofText?_of_spells (spells_printCode (Nat.succ_ne_zero j)),
      Text.Sign.isMinus_ofNegative, hback]

/-- Finite bits are printed as a text that is read as these bits. It stands for a decimal of scale
zero or above, which leads back to them as well, the sign of a zero apart. For other numbers than
zero it has the fewest significant digits of all that do, and of those with as many it is the
nearest to the number. An integer has no places and any other number no zero at the end. An
infinity, or what is no number, is refused. -/
theorem ofBinaryShortest_shortest :
    (∀ (f : BinaryFormat) (bits : f.Bits), Finite bits →
      f.ofText? (BinaryFormat.toText bits) = some bits ∧
      ∃ d, ofBinaryShortest bits = .ok d ∧ 0 ≤ d.scale ∧
        d.toBinary? f = some (if bits = f.negativeZero then 0 else bits) ∧
        (BinaryFormat.value bits ≠ 0 → IsShortest bits d) ∧
        ((∃ n : Int, BinaryFormat.value bits = n) → d.scale = 0) ∧
        ((¬ ∃ n : Int, BinaryFormat.value bits = n) → ¬ 10 ∣ d.magnitude)) ∧
    ∀ (f : BinaryFormat) (bits : f.Bits), ¬ Finite bits →
      ofBinaryShortest bits = .error .notFinite := by
  refine ⟨?_, ?_⟩
  · intro f bits hfin
    refine ⟨ofText?_toText hfin, ?_⟩
    by_cases hz : code bits = 0
    · have hvalue := BinaryFormat.value_eq_zero_iff.mpr hz
      have hzero : zero.value = BinaryFormat.value bits := by
        rw [hvalue, value_eq_zero_iff]
        rfl
      refine ⟨zero, ofBinaryShortest_of_zero hz, le_rfl, BinaryFormat.toBinary?_of_value hfin hzero,
        fun hne => absurd hvalue hne, fun _ => rfl, ?_⟩
      intro hne
      exact absurd ⟨0, by rw [hvalue, Int.cast_zero]⟩ hne
    · obtain ⟨j, hj⟩ := Nat.exists_eq_add_one_of_ne_zero hz
      obtain ⟨p, k, hd, h⟩ := exists_ofBinaryShortest_eq hfin hj
      have hne : bits ≠ f.negativeZero := by
        rintro rfl
        exact hz (BinaryFormat.code_ofCode (pow2_pos _))
      have hinteger := h.exponent_nonneg_iff
      rw [← hj, ← BinaryFormat.exists_value_eq_iff] at hinteger
      refine ⟨_, hd, Int.natCast_nonneg _, ?_, fun _ => isShortest_ofGridPoint hfin hj h, ?_, ?_⟩
      · rw [if_neg hne, toBinary?_eq_some_iff]
        exact toBinary_ofGridPoint hfin hj h
      · intro hn
        have hk := hinteger.mpr hn
        exact scale_ofGridPoint_of_le f _ p (by omega)
      · intro hn
        have hk := mt hinteger.mp hn
        rw [ten_dvd_ofGridPoint_iff f _ (by omega)]
        exact h.not_ten_dvd
  · intro f bits hfin
    exact ofBinaryShortest_of_not_finite hfin

/-- The least double below zero, whose exact value has 751 digits; an integer just below `10 ^ 23`,
of which all digits but one are left out; a zero below zero, and an infinity. -/
theorem ofBinaryShortest_shortest_at_ends :
    (Finite (BinaryFormat.double.ofCode true 1) ∧
      ∃ d, ofBinaryShortest (BinaryFormat.double.ofCode true 1) = .ok d ∧
        d.toBinary? .double = some (BinaryFormat.double.ofCode true 1) ∧
        IsShortest (BinaryFormat.double.ofCode true 1) d ∧ ¬ 10 ∣ d.magnitude) ∧
    (Finite (BinaryFormat.double.ofCode false 4950912855330343670) ∧
      ∃ d, ofBinaryShortest (BinaryFormat.double.ofCode false 4950912855330343670) = .ok d ∧
        IsShortest (BinaryFormat.double.ofCode false 4950912855330343670) d ∧ d.scale = 0) ∧
    (Finite BinaryFormat.double.negativeZero ∧
      BinaryFormat.double.ofText? (BinaryFormat.toText BinaryFormat.double.negativeZero) =
        some BinaryFormat.double.negativeZero ∧
      ∃ d, ofBinaryShortest BinaryFormat.double.negativeZero = .ok d ∧
        d.toBinary? .double = some 0) ∧
    (¬ Finite (BinaryFormat.double.ofCode false BinaryFormat.double.infinity) ∧
      ofBinaryShortest (BinaryFormat.double.ofCode false BinaryFormat.double.infinity) =
        .error .notFinite) := by
  have hleast : Finite (BinaryFormat.double.ofCode true 1) := by decide
  have hlarge : Finite (BinaryFormat.double.ofCode false 4950912855330343670) := by decide
  have hzero : Finite BinaryFormat.double.negativeZero := by decide
  have hinf : ¬ Finite (BinaryFormat.double.ofCode false BinaryFormat.double.infinity) := by decide
  obtain ⟨-, d, hd, -, hback, hshortest, -, hlast⟩ := ofBinaryShortest_shortest.1 .double _ hleast
  obtain ⟨-, e, he, -, -, hshortest', hscale, -⟩ := ofBinaryShortest_shortest.1 .double _ hlarge
  obtain ⟨hprinted, z, hz, -, hback', -⟩ := ofBinaryShortest_shortest.1 .double _ hzero
  refine ⟨⟨hleast, d, hd, hback, hshortest ?_, hlast ?_⟩, ⟨hlarge, e, he, hshortest' ?_, hscale ?_⟩,
    ⟨hzero, hprinted, z, hz, hback'⟩, hinf, ofBinaryShortest_shortest.2 .double _ hinf⟩
  · exact mt BinaryFormat.value_eq_zero_iff.mp (by decide)
  · exact mt BinaryFormat.exists_value_eq_iff.mp (by decide +kernel)
  · exact mt BinaryFormat.value_eq_zero_iff.mp (by decide)
  · exact BinaryFormat.exists_value_eq_iff.mpr (by decide +kernel)

example : ofBinaryShortest (BinaryFormat.double.ofCode false 4950912855330343670) =
    .ok ⟨10 ^ 23, 0, by decide⟩ := by decide +kernel

example : ofBinaryShortest (BinaryFormat.single.ofCode true 1) = .ok ⟨-1, 45, by decide⟩ := by
  decide +kernel

end Decimal

end ExactDecimal
