import ExactDecimal.Decimal.Order
import ExactDecimal.Proofs.Value
import Mathlib.Data.Rat.Floor
/-!
The numeric order is the order of the exact values. Integer part and rest lie on the same side of
zero, and the rest is less than a unit; so the integer parts decide unless they are equal. Nothing
is assumed about signs or scales: integer parts of zero and scales below zero are covered. For the
same reason the integer part of a decimal is that of its value, on the side of zero: the floor of
what is not negative and the ceiling of what is.
-/
namespace ExactDecimal

/-- Whole units and a rest of less than one unit, on the same side of zero. -/
structure Pieces (unit whole rest : Int) : Prop where
  lower : -unit < rest
  upper : rest < unit
  same_side : 0 ≤ whole ∧ 0 ≤ rest ∨ whole ≤ 0 ∧ rest ≤ 0

namespace Pieces

theorem neg {u w r : Int} (h : Pieces u w r) : Pieces u (-w) (-r) := by
  obtain ⟨hl, hu, hs⟩ := h
  constructor <;> omega

/-- Division toward zero yields such pieces. -/
theorem of_tdiv (n : Int) {u : Int} (hu : 0 < u) : Pieces u (n.tdiv u) (n.tmod u) := by
  have nonneg (k : Int) (hk : 0 ≤ k) : Pieces u (k.tdiv u) (k.tmod u) := by
    have hq := Int.tdiv_nonneg hk hu.le
    have hr := Int.tmod_nonneg u hk
    have hlt := Int.tmod_lt_of_pos k hu
    constructor <;> omega
  by_cases hn : 0 ≤ n
  · exact nonneg n hn
  · have h := (nonneg (-n) (by omega)).neg
    rwa [Int.neg_tdiv, Int.neg_tmod, Int.neg_neg, Int.neg_neg] at h

/-- A finer unit leaves the whole as it is. -/
theorem refine_unit {u w r k : Int} (h : Pieces u w r) (hk : 0 < k) :
    Pieces (u * k) w (r * k) := by
  obtain ⟨hl, hu, hs⟩ := h
  refine ⟨?_, mul_lt_mul_of_pos_right hu hk, ?_⟩
  · rw [← neg_mul]
    exact mul_lt_mul_of_pos_right hl hk
  · cases hs with
    | inl hs => exact .inl ⟨hs.1, mul_nonneg hs.2 hk.le⟩
    | inr hs => exact .inr ⟨hs.1, mul_nonpos_of_nonpos_of_nonneg hs.2 hk.le⟩

/-- The larger whole wins, whatever the rests are: a rest that could make up for it would have to
lie on the other side of zero. -/
theorem lt_of_whole_lt {u w r w' r' : Int} (h : Pieces u w r) (h' : Pieces u w' r')
    (hw : w < w') : w * u + r < w' * u + r' := by
  obtain ⟨hl, hu, hs⟩ := h
  obtain ⟨hl', hu', hs'⟩ := h'
  have hstep : (w + 1) * u ≤ w' * u := mul_le_mul_of_nonneg_right (by omega) (by omega)
  rw [add_mul, one_mul] at hstep
  omega

/-- Comparing wholes first and rests after is comparing what the pieces add up to. -/
theorem compare_then {u w r w' r' : Int} (h : Pieces u w r) (h' : Pieces u w' r') :
    (compare w w').then (compare r r') = compare (w * u + r) (w' * u + r') := by
  obtain hw | rfl | hw := lt_trichotomy w w'
  · rw [compare_lt_iff_lt.mpr hw, compare_lt_iff_lt.mpr (h.lt_of_whole_lt h' hw)]
    rfl
  · rw [compare_eq_iff_eq.mpr rfl, Ordering.eq_then, ← cmp_eq_compare r r',
      ← cmp_eq_compare (w * u + r), cmp_add_left]
  · rw [compare_gt_iff_gt.mpr hw, compare_gt_iff_gt.mpr (h'.lt_of_whole_lt h hw)]
    rfl

end Pieces

namespace Decimal

theorem scale_le_places (d : Decimal) : d.scale ≤ d.places := Int.self_le_toNat d.scale

theorem split_of_neg {d : Decimal} (h : d.scale < 0) :
    d.split = (d.magnitude * pow10 (-d.scale).toNat, 0) := if_pos h

theorem split_of_nonneg {d : Decimal} (h : 0 ≤ d.scale) :
    d.split = (d.magnitude.tdiv (pow10 d.places), d.magnitude.tmod (pow10 d.places)) :=
  if_neg (by omega)

theorem split_pieces (d : Decimal) : Pieces (pow10 d.places) d.split.1 d.split.2 := by
  have hu : (0 : Int) < pow10 d.places := Int.natCast_pos.mpr (pow10_pos _)
  by_cases h : d.scale < 0
  · rw [split_of_neg h]
    constructor <;> omega
  · rw [split_of_nonneg (by omega)]
    exact Pieces.of_tdiv _ hu

/-- Integer part and rest lose nothing. -/
theorem split_sum (d : Decimal) :
    d.split.1 * pow10 d.places + d.split.2 = d.magnitudeAt d.places := by
  by_cases h : d.scale < 0
  · have hp : d.places = 0 := Int.toNat_of_nonpos h.le
    simp [split_of_neg h, magnitudeAt, hp]
  · have hp : (d.places : Int) = d.scale := Int.toNat_of_nonneg (by omega)
    rw [split_of_nonneg (by omega), hp, magnitudeAt_self]
    exact Int.tdiv_mul_add_tmod _ _

theorem split_pieces_add (d : Decimal) (k : Nat) :
    Pieces (pow10 (d.places + k)) d.split.1 (d.split.2 * pow10 k) := by
  rw [pow10_add, Int.natCast_mul]
  exact d.split_pieces.refine_unit (Int.natCast_pos.mpr (pow10_pos k))

theorem split_sum_add (d : Decimal) (k : Nat) :
    d.split.1 * pow10 (d.places + k) + d.split.2 * pow10 k = d.magnitudeAt (d.places + k : Nat) := by
  rw [Int.natCast_add, magnitudeAt_add d d.scale_le_places, ← split_sum, pow10_add,
    Int.natCast_mul, add_mul, mul_assoc]

theorem compareSplit_eq (a b : Decimal) : a.compareSplit b = compare a.value b.value := by
  -- both rests are brought to the longer of the two fractions
  have hp : b.places + (a.places - b.places) = a.places + (b.places - a.places) := by omega
  have ha := split_pieces_add a (b.places - a.places)
  have hb := split_pieces_add b (a.places - b.places)
  have sa := split_sum_add a (b.places - a.places)
  have sb := split_sum_add b (a.places - b.places)
  rw [hp] at hb sb
  change (compare a.split.1 b.split.1).then (compare (a.split.2 * pow10 (b.places - a.places))
    (b.split.2 * pow10 (a.places - b.places))) = _
  rw [ha.compare_then hb, sa, sb]
  have := a.scale_le_places
  have := b.scale_le_places
  exact compare_magnitudeAt (by omega) (by omega)

theorem numericCompare_eq (a b : Decimal) : a.numericCompare b = compare a.value b.value := by
  by_cases h : a.scale = b.scale
  · have hs := compare_magnitudeAt (le_refl a.scale) h.ge
    rw [magnitudeAt_self, h, magnitudeAt_self] at hs
    rwa [numericCompare_of_scale_eq h]
  · rw [numericCompare, if_neg h, compareSplit_eq]

/-- The sign of a difference is the order of its operands. -/
theorem compare_magnitude_sub (a b : Decimal) :
    compare (a - b).magnitude 0 = compare a.value b.value := by
  have ha : a.scale ≤ (a - b).scale := scale_le_add_left a (-b)
  have hb : b.scale ≤ (a - b).scale := scale_le_add_right a (-b)
  rw [magnitude_sub, ← cmp_eq_compare, cmp_sub_zero, cmp_eq_compare, compare_magnitudeAt ha hb]

instance : Std.TransCmp numericCompare where
  eq_swap {a b} := by
    rw [numericCompare_eq, numericCompare_eq]
    exact Std.OrientedCmp.eq_swap
  isLE_trans {a b c} hab hbc := by
    rw [numericCompare_eq] at *
    exact Std.TransCmp.isLE_trans hab hbc

/-- The numeric order is that of the values, which is also the sign of the exact difference. The
way over integer parts would decide every pair alone; the short way between equal scales agrees
with it. So the order is a total preorder, and its ties are the decimals of equal value. -/
theorem numericCompare_orders_values :
    (∀ a b : Decimal,
      (a.numericCompare b = .lt ↔ a.value < b.value) ∧
      (a.numericCompare b = .eq ↔ a.value = b.value) ∧
      (a.numericCompare b = .gt ↔ b.value < a.value) ∧
      a.numericCompare b = compare (a - b).magnitude 0 ∧
      a.numericCompare b = a.compareSplit b ∧
      (a.scale = b.scale → a.compareSplit b = compare a.magnitude b.magnitude)) ∧
    Std.TransCmp numericCompare := by
  refine ⟨?_, inferInstance⟩
  intro a b
  have hs : a.compareSplit b = a.numericCompare b := by rw [numericCompare_eq, compareSplit_eq]
  refine ⟨?_, ?_, ?_, ?_, hs.symm, ?_⟩
  · rw [numericCompare_eq, compare_lt_iff_lt]
  · rw [numericCompare_eq, compare_eq_iff_eq]
  · rw [numericCompare_eq, compare_gt_iff_gt]
  · rw [numericCompare_eq, compare_magnitude_sub]
  · intro h
    rw [hs, numericCompare_of_scale_eq h]

/-- Both ways between two decimals of the same negative scale. -/
theorem numericCompare_orders_values_below_zero :
    compareSplit ⟨-7, -2, by decide⟩ ⟨3, -2, by decide⟩ = compare (-7 : Int) 3 :=
  (numericCompare_orders_values.1 ⟨-7, -2, by decide⟩ ⟨3, -2, by decide⟩).2.2.2.2.2 rfl

/-! ## The integer part of the value -/

/-- What is left beside the integer part, as a fraction of a unit. -/
theorem value_eq_truncate_add (d : Decimal) :
    d.value = d.truncate + (d.split.2 : ℚ) / pow10 d.places := by
  have hu : (pow10 d.places : ℚ) ≠ 0 := Nat.cast_ne_zero.mpr (pow10_pos _).ne'
  have hsum : (d.truncate : ℚ) * pow10 d.places + d.split.2 = d.value * pow10 d.places := by
    have hv := value_mul_ten_zpow d.scale_le_places
    rw [← cast_pow10_zpow, ← split_sum] at hv
    rw [hv, truncate]
    push_cast
    rfl
  rw [eq_div_of_mul_eq hu hsum.symm, add_div, mul_div_cancel_right₀ _ hu]

theorem truncate_eq (d : Decimal) :
    d.truncate = if 0 ≤ d.value then ⌊d.value⌋ else ⌈d.value⌉ := by
  obtain ⟨hl, hu, hs⟩ := d.split_pieces
  have hpos : (0 : ℚ) < pow10 d.places := Nat.cast_pos.mpr (pow10_pos _)
  have hv := d.value_eq_truncate_add
  have hlower : -1 < (d.split.2 : ℚ) / pow10 d.places := by
    rw [lt_div_iff₀ hpos, neg_one_mul]
    exact_mod_cast hl
  have hupper : (d.split.2 : ℚ) / pow10 d.places < 1 := by
    rw [div_lt_one hpos]
    exact_mod_cast hu
  have hside : (0 : ℚ) ≤ d.truncate ∧ 0 ≤ (d.split.2 : ℚ) / pow10 d.places ∨
      (d.truncate : ℚ) ≤ 0 ∧ (d.split.2 : ℚ) / pow10 d.places ≤ 0 := by
    cases hs with
    | inl hs =>
      exact .inl ⟨Int.cast_nonneg hs.1, div_nonneg (Int.cast_nonneg hs.2) hpos.le⟩
    | inr hs =>
      exact .inr ⟨Int.cast_nonpos.mpr hs.1,
        div_nonpos_of_nonpos_of_nonneg (Int.cast_nonpos.mpr hs.2) hpos.le⟩
  generalize (d.split.2 : ℚ) / pow10 d.places = rest at *
  split
  · symm
    rw [Int.floor_eq_iff]
    constructor
    · obtain hs | hs := hside <;> linarith
    · linarith
  · symm
    rw [Int.ceil_eq_iff]
    constructor
    · linarith
    · obtain hs | hs := hside <;> linarith

end Decimal

end ExactDecimal
