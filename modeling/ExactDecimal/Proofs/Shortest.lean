import ExactDecimal.Proofs.ExactBinary
import ExactDecimal.Proofs.Interval
/-!
The search for the shortest decimal, and what it cannot miss. A grid has a point in the rounding
interval of a number only if one of the two grid points next to the number lies there, so that the
first grid with a hit is the coarsest with any point in the interval, and the better of the two is
the nearest of all its points there. A decimal of few digits lies on a grid whose spacing is wider
than the interval. It is the only point of its grid there, and the search, which ends on that grid
or a coarser one, can find no other.
-/
namespace ExactDecimal

namespace RoundingInterval

variable {i : RoundingInterval} {spacing scaling : Nat}

/-! ## One grid -/

theorem holds_of_gridPoint? {p : Nat} (h : i.gridPoint? spacing scaling = some p) :
    i.holds scaling (p * spacing) = true := by
  simp only [gridPoint?] at h
  split at h
  · rename_i hb ha
    cases Option.some.inj h
    split
    · exact hb
    · exact ha
  · rename_i hb ha
    cases Option.some.inj h
    exact hb
  · rename_i hb ha
    cases Option.some.inj h
    exact ha
  · exact nomatch h

/-- A grid that has a point in the interval has one next to the middle. -/
theorem gridPoint?_ne_none (hm : i.holds scaling (i.middle * scaling) = true)
    (hspacing : 0 < spacing) {p : Nat} (h : i.holds scaling (p * spacing) = true) :
    i.gridPoint? spacing scaling ≠ none := by
  have hdiv := Nat.div_add_mod' (i.middle * scaling) spacing
  have hrest := Nat.mod_lt (i.middle * scaling) hspacing
  simp only [gridPoint?]
  by_cases hp : p ≤ i.middle * scaling / spacing
  · have hbelow := holds_of_between h hm (Nat.mul_le_mul_right spacing hp) (by omega)
    rw [hbelow]
    cases i.holds scaling ((i.middle * scaling / spacing + 1) * spacing) with
    | true => exact Option.some_ne_none _
    | false => exact Option.some_ne_none _
  · have hnext : (i.middle * scaling / spacing + 1) * spacing =
        i.middle * scaling / spacing * spacing + spacing := Nat.succ_mul _ _
    have habove := holds_of_between hm h (y := (i.middle * scaling / spacing + 1) * spacing)
      (by omega) (Nat.mul_le_mul_right spacing (Nat.lt_of_not_le hp))
    rw [habove]
    cases i.holds scaling (i.middle * scaling / spacing * spacing) with
    | true => exact Option.some_ne_none _
    | false => exact Option.some_ne_none _

/-- No point of the grid in the interval is nearer to the middle than the one that is taken. -/
theorem gridPoint?_nearest (hm : i.holds scaling (i.middle * scaling) = true)
    (hspacing : 0 < spacing) {p q : Nat} (hp : i.gridPoint? spacing scaling = some p)
    (hq : i.holds scaling (q * spacing) = true) :
    |((p * spacing : Nat) : Int) - (i.middle * scaling : Nat)| ≤
      |((q * spacing : Nat) : Int) - (i.middle * scaling : Nat)| := by
  have hdiv := Nat.div_add_mod' (i.middle * scaling) spacing
  have hrest := Nat.mod_lt (i.middle * scaling) hspacing
  rw [Int.abs_eq_natAbs, Int.abs_eq_natAbs]
  simp only [gridPoint?] at hp
  generalize i.middle * scaling % spacing = rest at *
  generalize i.middle * scaling / spacing = below at *
  generalize i.middle * scaling = middle at *
  have hnext : (below + 1) * spacing = below * spacing + spacing := Nat.succ_mul _ _
  -- a point on one side of the middle is no nearer than the point that is next to it there
  have hside : q * spacing ≤ below * spacing ∨ (below + 1) * spacing ≤ q * spacing := by
    obtain h | h := Nat.lt_or_ge below q
    · exact .inr (Nat.mul_le_mul_right _ h)
    · exact .inl (Nat.mul_le_mul_right _ h)
  split at hp
  · cases Option.some.inj hp
    split
    · omega
    · omega
  · rename_i hb ha
    cases Option.some.inj hp
    obtain hle | hle := hside
    · omega
    · exact absurd (holds_of_between hm hq (by omega) hle) (by rw [ha]; decide)
  · rename_i hb ha
    cases Option.some.inj hp
    obtain hle | hle := hside
    · exact absurd (holds_of_between hq hm hle (by omega)) (by rw [hb]; decide)
    · omega
  · exact nomatch hp

/-! ## All grids -/

/-- Whether the interval holds the point `p` of the grid of `10 ^ k / 10 ^ depth`. -/
def HoldsPoint (i : RoundingInterval) (depth k p : Nat) : Prop :=
  i.holds (pow10 (depth - k)) (p * (pow2 (depth + 2) * pow10 (k - depth))) = true

/-- What the search down from the grid of `10 ^ limit / 10 ^ depth` is to find: a point in the
interval, on the coarsest of the grids that have one. -/
structure Coarsest (i : RoundingInterval) (depth limit : Nat) (found : Nat × Nat) : Prop where
  holds : i.HoldsPoint depth found.2 found.1
  coarsest : ∀ k p, k ≤ limit → i.HoldsPoint depth k p → k ≤ found.2

theorem middle_on_finest_grid (f : BinaryFormat) (code depth : Nat) :
    (ofCode f code).middle * pow10 depth / pow2 (depth + 2) * pow2 (depth + 2) =
      (ofCode f code).middle * pow10 depth := by
  apply Nat.div_mul_cancel
  rw [middle_ofCode, Nat.add_comm, pow2_add, ← pow2_mul_pow5]
  exact Nat.mul_dvd_mul (Nat.dvd_mul_right 4 _) (Nat.dvd_mul_right _ _)

/-- The middle is a point of the finest grid. -/
theorem holdsPoint_middle (f : BinaryFormat) (j depth : Nat) :
    (ofCode f (j + 1)).HoldsPoint depth 0
      ((ofCode f (j + 1)).middle * pow10 depth / pow2 (depth + 2)) := by
  rw [HoldsPoint, Nat.zero_sub, pow10_zero, Nat.mul_one, middle_on_finest_grid]
  exact holds_middle f j (pow10_pos _)

theorem coarsest_spec (f : BinaryFormat) (j depth limit : Nat) :
    (ofCode f (j + 1)).Coarsest depth limit ((ofCode f (j + 1)).coarsest depth limit) := by
  induction limit with
  | zero => exact ⟨holdsPoint_middle f j depth, fun k _ hk _ => hk⟩
  | succ limit ih =>
    rw [coarsest]
    split
    · rename_i point h
      exact ⟨holds_of_gridPoint? h, fun k _ hk _ => hk⟩
    · rename_i h
      refine ⟨ih.holds, fun k p hk hp => ?_⟩
      obtain rfl | hlt := Nat.eq_or_lt_of_le hk
      · -- a grid without a point next to the middle has none in the interval
        have hspacing := Nat.mul_pos (pow2_pos (depth + 2)) (pow10_pos (limit + 1 - depth))
        exact absurd h (gridPoint?_ne_none (holds_middle f j (pow10_pos _)) hspacing hp)
      · exact ih.coarsest k p (Nat.le_of_lt_succ hlt) hp

/-- How far a point of a grid is from the middle, at the scaling of that grid. -/
def gridDistance (i : RoundingInterval) (depth k p : Nat) : Int :=
  |((p * (pow2 (depth + 2) * pow10 (k - depth)) : Nat) : Int) -
    (i.middle * pow10 (depth - k) : Nat)|

/-- On its own grid, no other point in the interval is nearer to the middle. -/
theorem coarsest_nearest (f : BinaryFormat) (j depth limit : Nat) {q : Nat}
    (h : (ofCode f (j + 1)).HoldsPoint depth ((ofCode f (j + 1)).coarsest depth limit).2 q) :
    (ofCode f (j + 1)).gridDistance depth ((ofCode f (j + 1)).coarsest depth limit).2
        ((ofCode f (j + 1)).coarsest depth limit).1 ≤
      (ofCode f (j + 1)).gridDistance depth ((ofCode f (j + 1)).coarsest depth limit).2 q := by
  induction limit with
  | zero =>
    -- the point is the middle itself
    rw [coarsest, gridDistance, Nat.zero_sub, pow10_zero, Nat.mul_one, middle_on_finest_grid,
      Nat.sub_zero, sub_self, abs_zero]
    exact abs_nonneg _
  | succ limit ih =>
    rw [coarsest] at h ⊢
    split
    · rename_i point hpoint
      rw [hpoint] at h
      have hspacing := Nat.mul_pos (pow2_pos (depth + 2)) (pow10_pos (limit + 1 - depth))
      exact gridPoint?_nearest (holds_middle f j (pow10_pos _)) hspacing hpoint h
    · rename_i hnone
      rw [hnone] at h
      exact ih h

/-- A grid point, from quarters at the scaling of its grid to units. -/
theorem gridPoint_units (f : BinaryFormat) (k p : Nat) :
    ((p * (pow2 (f.depth + 2) * pow10 (k - f.depth)) : Nat) : ℚ) / (4 * pow10 (f.depth - k) : Nat) =
      p * 10 ^ ((k : Int) - f.depth) * 2 ^ f.depth := by
  rw [← pow10_sub_div, ← cast_pow2, pow2_add]
  have hfour : pow2 2 = 4 := rfl
  have hne : (pow10 (f.depth - k) : ℚ) ≠ 0 := Nat.cast_ne_zero.mpr (pow10_pos _).ne'
  rw [hfour]
  push_cast
  field_simp

theorem holdsPoint_iff (f : BinaryFormat) (j k p : Nat) :
    (ofCode f (j + 1)).HoldsPoint f.depth k p ↔
      BinaryFormat.RoundsTo f (p * 10 ^ ((k : Int) - f.depth) * 2 ^ f.depth) (j + 1) := by
  rw [HoldsPoint, holds_ofCode_iff f j (pow10_pos _), gridPoint_units]

/-- The distance in units. -/
theorem gridDistance_div (f : BinaryFormat) (code k p : Nat) :
    ((ofCode f code).gridDistance f.depth k p : ℚ) / (4 * pow10 (f.depth - k) : Nat) =
      |(p : ℚ) * 10 ^ ((k : Int) - f.depth) * 2 ^ f.depth - f.units code| := by
  have hq : (0 : ℚ) < (4 * pow10 (f.depth - k) : Nat) :=
    Nat.cast_pos.mpr (Nat.mul_pos (by decide) (pow10_pos _))
  have hmiddle : (((ofCode f code).middle * pow10 (f.depth - k) : Nat) : ℚ) =
      f.units code * (4 * pow10 (f.depth - k) : Nat) := by
    rw [middle_ofCode, ← Nat.cast_mul]
    congr 1
    ac_rfl
  have hsub : (p : ℚ) * 10 ^ ((k : Int) - f.depth) * 2 ^ f.depth - f.units code =
      ((p * (pow2 (f.depth + 2) * pow10 (k - f.depth)) : Nat) -
        ((ofCode f code).middle * pow10 (f.depth - k) : Nat)) / (4 * pow10 (f.depth - k) : Nat) := by
    rw [hmiddle, sub_div, gridPoint_units, mul_div_cancel_right₀ _ hq.ne']
  rw [hsub, abs_div, abs_of_pos hq, gridDistance, Int.cast_abs, Int.cast_sub, Int.cast_natCast,
    Int.cast_natCast]

/-- The points of a grid are points of every finer one. -/
theorem refine_grid {j k depth p : Nat} (h : k ≤ j) :
    (p : ℚ) * 10 ^ ((j : Int) - depth) = (p * pow10 (j - k) : Nat) * 10 ^ ((k : Int) - depth) := by
  have hexp : (j : Int) - depth = (j - k : Nat) + ((k : Int) - depth) := by omega
  rw [hexp, zpow_add₀ (by decide), Nat.cast_mul, cast_pow10_zpow, mul_assoc]

/-- The only decimal of its grid that rounds to a number is the one that is found. -/
theorem found_eq_of_wide (f : BinaryFormat) (j : Nat) {limit k n : Nat} (hk : k ≤ limit)
    (h : (ofCode f (j + 1)).HoldsPoint f.depth k n)
    (hwide : (pow2 (f.shift (j + 1)) : ℚ) < 10 ^ ((k : Int) - f.depth) * 2 ^ f.depth) :
    (((ofCode f (j + 1)).coarsest f.depth limit).1 : ℚ) *
        10 ^ ((((ofCode f (j + 1)).coarsest f.depth limit).2 : Int) - f.depth) =
      n * 10 ^ ((k : Int) - f.depth) := by
  obtain ⟨hfound, hcoarsest⟩ := coarsest_spec f j f.depth limit
  have hle := hcoarsest k n hk h
  generalize (ofCode f (j + 1)).coarsest f.depth limit = found at *
  rw [holdsPoint_iff] at h hfound
  rw [refine_grid hle] at hfound ⊢
  -- two points of the grid that are less than its spacing apart
  have hnear := (hfound.abs_sub_le h).trans_lt hwide
  have hpos : (0 : ℚ) < 10 ^ ((k : Int) - f.depth) * 2 ^ f.depth :=
    mul_pos (ten_zpow_pos _) (by positivity)
  rw [mul_assoc, mul_assoc, ← sub_mul, abs_mul, abs_of_pos hpos,
    mul_lt_iff_lt_one_left hpos] at hnear
  have hint : |((found.1 * pow10 (found.2 - k) : Nat) : Int) - n| < 1 := by exact_mod_cast hnear
  have heq : found.1 * pow10 (found.2 - k) = n := by
    have := Int.abs_lt_one_iff.mp hint
    omega
  rw [heq]

end RoundingInterval

/-! ## Decimals of few digits -/

namespace BinaryFormat

variable {f : BinaryFormat} {x : ℚ} {code : Nat}

theorem RoundsTo.le_code {k : Nat} (h : RoundsTo f x code) (hx : f.units k ≤ x) : k ≤ code := by
  by_contra hlt
  have hbelow := h.below
  have hmid := midpoint_lt_units (f := f) (lt_of_not_ge hlt)
  linarith

theorem RoundsTo.lt_units_infinity (h : RoundsTo f x code) (hc : code < f.infinity) :
    x < f.units f.infinity := by
  have hbelow := h.below
  have hmid := midpoint_lt_units (f := f) hc
  linarith

theorem units_hiddenBit (f : BinaryFormat) : f.units (pow2 f.fractionBits) = pow2 f.fractionBits := by
  have hp := pow2_pos f.fractionBits
  have h : f.units (0 * pow2 f.fractionBits + pow2 f.fractionBits) =
      pow2 f.fractionBits * pow2 0 := units_add (by omega) (.inl rfl)
  rwa [Nat.zero_mul, Nat.zero_add, pow2_zero, Nat.mul_one] at h

/-- A number that rounds to a code with the hidden bit is not half a step short of the hidden bit
times the step. -/
theorem RoundsTo.hiddenBit_mul_step_le (h : RoundsTo f x code) (hc : pow2 f.fractionBits ≤ code) :
    2 * ((pow2 f.fractionBits : ℚ) * pow2 (f.shift code)) ≤ 2 * x + pow2 (f.shift code) := by
  have hp := pow2_pos f.fractionBits
  obtain ⟨j, rfl⟩ := Nat.exists_eq_add_one_of_ne_zero (by omega : code ≠ 0)
  have hnormal : pow2 f.fractionBits ≤ f.significand (j + 1) := by
    rw [significand]
    split <;> omega
  have hunits : (pow2 f.fractionBits : ℚ) * pow2 (f.shift (j + 1)) ≤ f.units (j + 1) := by
    exact_mod_cast Nat.mul_le_mul_right _ hnormal
  have hhalf := h.two_mul_abs_sub_le
  have hbelow := neg_abs_le (x - f.units (j + 1))
  linarith

/-- A grid is wider than the step of the format at its points with a small coefficient. -/
theorem step_lt_grid {n : Nat} {grid : ℚ} (hn : n < pow2 f.fractionBits)
    (hx : (pow2 f.fractionBits : ℚ) ≤ n * grid) (h : RoundsTo f (n * grid) code) :
    (pow2 (f.shift code) : ℚ) < grid := by
  have hsteps := h.hiddenBit_mul_step_le (h.le_code (by rwa [units_hiddenBit]))
  have hwidth : (0 : ℚ) < pow2 (f.shift code) := Nat.cast_pos.mpr (pow2_pos _)
  have hcast : (n : ℚ) + 1 ≤ pow2 f.fractionBits := by exact_mod_cast hn
  by_contra hle
  -- too many steps of that length make up the number
  have hnarrow : (n : ℚ) * grid ≤ n * pow2 (f.shift code) :=
    mul_le_mul_of_nonneg_left (not_lt.mp hle) (Nat.cast_nonneg n)
  have hfew : ((n : ℚ) + 1) * pow2 (f.shift code) ≤ pow2 f.fractionBits * pow2 (f.shift code) :=
    mul_le_mul_of_nonneg_right hcast hwidth.le
  linarith

/-- The finest grid is already too fine to be wider than a unit. -/
theorem neg_depth_lt_of_one_lt_grid {exponent : Int} (h : (1 : ℚ) < 10 ^ exponent * 2 ^ f.depth) :
    -(f.depth : Int) < exponent := by
  by_contra hle
  have hten : (10 : ℚ) ^ exponent ≤ 10 ^ (-(f.depth : Int)) :=
    zpow_le_zpow_right₀ (by decide) (not_lt.mp hle)
  have hpow : (2 : ℚ) ^ f.depth ≤ 10 ^ f.depth := pow_le_pow_left₀ (by decide) (by decide) _
  have hone : (10 : ℚ) ^ exponent * 2 ^ f.depth ≤ 1 :=
    calc
      (10 : ℚ) ^ exponent * 2 ^ f.depth ≤ 10 ^ (-(f.depth : Int)) * 10 ^ f.depth :=
        mul_le_mul hten hpow (by positivity) (ten_zpow_pos _).le
      _ = 1 := by rw [zpow_neg, zpow_natCast, inv_mul_cancel₀ (by positivity)]
  exact h.not_ge hone

/-- The coarsest grid has no finite number but zero. -/
theorem lt_of_grid_lt_infinity {exponent : Int}
    (h : (10 : ℚ) ^ exponent * 2 ^ f.depth < f.units f.infinity) : exponent < 309 := by
  have hinf : (f.units f.infinity : ℚ) ≤ pow10 309 * pow2 f.depth := by
    exact_mod_cast f.units_infinity_le
  rw [cast_pow10_zpow, cast_pow2] at hinf
  have hlt := lt_of_mul_lt_mul_right (h.trans_le hinf) (by positivity)
  exact (zpow_lt_zpow_iff_right₀ (by decide)).mp hlt

/-- The grid of a decimal of few digits is one of those that are searched. -/
theorem exists_grid {n : Nat} {exponent : Int} (hn : n < pow2 f.fractionBits)
    (hx : (pow2 f.fractionBits : ℚ) ≤ n * 10 ^ exponent * 2 ^ f.depth)
    (h : RoundsTo f (n * 10 ^ exponent * 2 ^ f.depth) code) (hc : code < f.infinity) :
    ∃ k ≤ f.depth + 309, exponent = (k : Int) - f.depth ∧
      (pow2 (f.shift code) : ℚ) < 10 ^ exponent * 2 ^ f.depth := by
  rw [mul_assoc] at hx h
  have hwide := step_lt_grid hn hx h
  have hstep : (1 : ℚ) ≤ pow2 (f.shift code) := by exact_mod_cast pow2_pos (f.shift code)
  have hlower := neg_depth_lt_of_one_lt_grid (hstep.trans_lt hwide)
  have hgrid : (0 : ℚ) ≤ 10 ^ exponent * 2 ^ f.depth := by linarith
  have hn : (1 : ℚ) ≤ n := by
    rw [Nat.one_le_cast, Nat.one_le_iff_ne_zero]
    rintro rfl
    rw [Nat.cast_zero, zero_mul] at hx
    exact (Nat.cast_pos.mpr (pow2_pos f.fractionBits)).not_ge hx
  have hupper := lt_of_grid_lt_infinity
    ((le_mul_of_one_le_left hgrid hn).trans_lt (h.lt_units_infinity hc))
  exact ⟨(exponent + f.depth).toNat, by omega, by omega, hwide⟩

end BinaryFormat

/-! ## The printed text -/

open Text (Digits digits_numeral digits_replicate_zero)

/-- Wherever the point is set, the digits are those of the number, and what is left of the position
is the scale or a power of ten. -/
theorem spells_setPoint {digits : List Char} (h : Digits digits) (hne : digits ≠ [])
    (position : Int) :
    Spells (setPoint digits position) (ofNumeral digits * pow10 (position - digits.length).toNat)
      (digits.length - position).toNat := by
  have hlen := List.length_pos_iff.mpr hne
  rw [setPoint]
  by_cases hfront : position ≤ 0
  · have hd : Digits (['0'] ++ (List.replicate (-position).toNat '0' ++ digits)) :=
      (digits_replicate_zero 1).append ((digits_replicate_zero _).append h)
    have hn : ofNumeral (['0'] ++ (List.replicate (-position).toNat '0' ++ digits)) =
        ofNumeral digits := (ofNumeral_zeros_append 1 _).trans (ofNumeral_zeros_append _ _)
    have hs := spells_of_point hd (List.cons_ne_nil _ _)
    rw [hn, List.length_append, List.length_replicate] at hs
    have hz : (position - digits.length).toNat = 0 := by omega
    have hplaces : (digits.length - position).toNat = (-position).toNat + digits.length := by omega
    rwa [if_pos hfront, hz, pow10_zero, Nat.mul_one, hplaces]
  · by_cases hinner : position < digits.length
    · have hs := spells_cut h hne position.toNat
      have hz : (position - digits.length).toNat = 0 := by omega
      have hplaces : (digits.length - position).toNat = digits.length - position.toNat := by omega
      rwa [if_neg hfront, if_pos hinner, hz, pow10_zero, Nat.mul_one, hplaces]
    · have hs := spells_append_zeros h hne (position - digits.length).toNat
      have hplaces : (digits.length - position).toNat = 0 := by omega
      rwa [if_neg hfront, if_neg hinner, hplaces]

/-- A point of a grid is printed with all of its digits, and with the places of the grid. -/
theorem spells_gridPoint (f : BinaryFormat) (point k : Nat) :
    Spells (setPoint (numeral point) (digitCount point + k - f.depth))
      (point * pow10 (k - f.depth)) (f.depth - k) := by
  have hs := spells_setPoint (digits_numeral point) Nat.toDigits_ne_nil
    (digitCount point + k - f.depth)
  have hpower : (digitCount point + k - f.depth - (numeral point).length : Int).toNat =
      k - f.depth := by
    rw [digitCount]
    omega
  have hplaces : ((numeral point).length - (digitCount point + k - f.depth) : Int).toNat =
      f.depth - k := by
    rw [digitCount]
    omega
  rwa [hpower, hplaces, ofNumeral_numeral] at hs

theorem spells_printCode_zero (f : BinaryFormat) : Spells (f.printCode 0) 0 0 := by
  rw [BinaryFormat.printCode, if_pos rfl]
  exact spells_of_digits (digits_numeral 0) (List.cons_ne_nil _ _)

theorem spells_printCode {f : BinaryFormat} {code : Nat} (h : code ≠ 0) :
    Spells (f.printCode code)
      (((RoundingInterval.ofCode f code).coarsest f.depth (f.depth + 309)).1 *
        pow10 (((RoundingInterval.ofCode f code).coarsest f.depth (f.depth + 309)).2 - f.depth))
      (f.depth - ((RoundingInterval.ofCode f code).coarsest f.depth (f.depth + 309)).2) := by
  rw [BinaryFormat.printCode, if_neg h]
  exact spells_gridPoint f _ _

theorem BinaryFormat.toList_toText {f : BinaryFormat} (bits : f.Bits) :
    (toText bits).toList =
      (Text.Sign.ofNegative (isNegative bits)).chars ++ f.printCode (code bits) := by
  rw [toText, String.toList_ofList, Text.Sign.chars_ofNegative]
  cases isNegative bits with
  | false => rfl
  | true => rfl

theorem cast_signed (negative : Bool) (n : Nat) :
    (signed negative n : ℚ) = signed negative 1 * n := by
  rw [← Int.cast_natCast n, ← Int.cast_mul, ← signed_mul, Nat.one_mul]

namespace Decimal

open BinaryFormat (RoundsTo code code_ofCode isNegative_ofCode units_hiddenBit exists_grid)

/-- The decimal `point · 10 ^ k / 10 ^ depth` at scale zero or above. -/
def ofGridPoint (f : BinaryFormat) (negative : Bool) (point k : Nat) : Decimal where
  magnitude := signed negative (point * pow10 (k - f.depth))
  scale := (f.depth - k : Nat)
  scale_fits := by
    have := f.depth_le
    omega

theorem value_ofGridPoint (f : BinaryFormat) (negative : Bool) (point k : Nat) :
    (ofGridPoint f negative point k).value =
      signed negative point * 10 ^ ((k : Int) - f.depth) := by
  rw [← pow10_sub_div, value]
  simp only [ofGridPoint]
  rw [signed_mul, Int.cast_mul, Int.cast_natCast, zpow_neg, ← cast_pow10_zpow, mul_assoc,
    div_eq_mul_inv]

/-! ## Reading the printed text -/

section Printed

variable {f : BinaryFormat} {bits : f.Bits}

/-- What is printed for finite bits is read as it stands. -/
theorem ofBinaryShortest_of_spells (hfin : BinaryFormat.Finite bits) {n places : Nat}
    (h : Spells (f.printCode (code bits)) n places) {d : Decimal}
    (hm : d.magnitude = signed (BinaryFormat.isNegative bits) n) (hs : d.scale = places) :
    ofBinaryShortest bits = .ok d := by
  have hlt : code bits < f.infinity := hfin
  rw [ofBinaryShortest, if_pos hlt, ofText, BinaryFormat.toList_toText]
  apply ofChars_of_spells h _ _ hs
  rw [hm, Text.Sign.isMinus_ofNegative]

theorem ofBinaryShortest_of_zero (h : code bits = 0) : ofBinaryShortest bits = .ok zero := by
  have hs : Spells (f.printCode (code bits)) 0 0 := by
    rw [h]
    exact spells_printCode_zero f
  exact ofBinaryShortest_of_spells (h.trans_lt f.infinity_pos) hs (signed_zero _).symm rfl

/-- The point that is found has the digits that are printed, and its grid their scale. -/
theorem ofBinaryShortest_of_ne_zero (hfin : BinaryFormat.Finite bits) (hcode : code bits ≠ 0) :
    ofBinaryShortest bits = .ok (ofGridPoint f (BinaryFormat.isNegative bits)
      ((RoundingInterval.ofCode f (code bits)).coarsest f.depth (f.depth + 309)).1
      ((RoundingInterval.ofCode f (code bits)).coarsest f.depth (f.depth + 309)).2) :=
  ofBinaryShortest_of_spells hfin (spells_printCode hcode) rfl rfl

end Printed

/-! ## Decimals with few digits -/

/-- A decimal with few digits, not below the least number with a hidden bit, is got back from the
binary number to which it is rounded. -/
theorem ofBinaryShortest_of_roundsTo {f : BinaryFormat} {bits : f.Bits}
    (hfin : BinaryFormat.Finite bits) {n : Nat} {exponent : Int} (hn : n < pow2 f.fractionBits)
    (hx : (pow2 f.fractionBits : ℚ) ≤ n * 10 ^ exponent * 2 ^ f.depth)
    (h : RoundsTo f (n * 10 ^ exponent * 2 ^ f.depth) (code bits)) :
    ∃ d, ofBinaryShortest bits = .ok d ∧
      d.value = signed (BinaryFormat.isNegative bits) n * 10 ^ exponent := by
  obtain ⟨k, hk, rfl, hwide⟩ := exists_grid hn hx h hfin
  have hcode : code bits ≠ 0 := by
    have := pow2_pos f.fractionBits
    have := h.le_code (k := pow2 f.fractionBits) (by rwa [units_hiddenBit])
    omega
  refine ⟨_, ofBinaryShortest_of_ne_zero hfin hcode, ?_⟩
  obtain ⟨j, hj⟩ := Nat.exists_eq_add_one_of_ne_zero hcode
  rw [hj] at h hwide ⊢
  have hpoint := (RoundingInterval.holdsPoint_iff f j k n).mpr h
  have hfound := RoundingInterval.found_eq_of_wide f j hk hpoint hwide
  rw [value_ofGridPoint, cast_signed, mul_assoc, hfound, ← mul_assoc, ← cast_signed]

/-- The same for any spelling of that decimal, and for zero. -/
theorem ofBinaryShortest_nearest {f : BinaryFormat} (negative : Bool) {m : Nat} {exponent : Int}
    (h : m = 0 ∨ (pow2 f.fractionBits : ℚ) ≤ m * 10 ^ exponent * 2 ^ f.depth ∧
      m * 10 ^ exponent * 2 ^ f.depth ≤ (f.units (f.infinity - 1) : ℚ))
    {n k : Nat} (hn : n < pow2 f.fractionBits) (hm : m = n * pow10 k) :
    ∃ d, ofBinaryShortest (f.ofCode negative (f.nearest m exponent)) = .ok d ∧
      d.value = signed negative m * 10 ^ exponent := by
  obtain rfl | ⟨hx, hlast⟩ := h
  · have hcode : code (f.ofCode negative (f.nearest 0 exponent)) = 0 := by
      rw [BinaryFormat.nearest, if_pos (.inl rfl)]
      exact code_ofCode (pow2_pos _)
    refine ⟨zero, ofBinaryShortest_of_zero hcode, ?_⟩
    rw [signed_zero, Int.cast_zero, zero_mul, value_eq_zero_iff]
    rfl
  · obtain ⟨hround, hlt⟩ := f.nearest_of_le_largest hlast
    have hcount := hlt.trans f.infinity_lt_codeCount
    have hvalue : (m : ℚ) * 10 ^ exponent = n * 10 ^ (k + exponent) := by
      rw [hm, Nat.cast_mul, cast_pow10_zpow, zpow_add₀ (by decide), mul_assoc]
    have hcode : code (f.ofCode negative (f.nearest m exponent)) =
        f.nearest m exponent := code_ofCode hcount
    have hfin : BinaryFormat.Finite (f.ofCode negative (f.nearest m exponent)) := by
      rwa [BinaryFormat.Finite, hcode]
    rw [← hcode, hvalue] at hround
    obtain ⟨d, hd, hvd⟩ := ofBinaryShortest_of_roundsTo hfin hn (hvalue ▸ hx) hround
    refine ⟨d, hd, ?_⟩
    rw [hvd, isNegative_ofCode hcount, cast_signed, mul_assoc, ← hvalue, ← mul_assoc,
      ← cast_signed]

end Decimal

end ExactDecimal
