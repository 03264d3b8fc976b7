import ExactDecimal.Proofs.BinaryValue
import Mathlib.Algebra.Order.Ring.Rat
import Mathlib.Tactic.Linarith
/-!
Rounding to the nearest number of a binary format, as a matter of midpoints. A number is rounded to
the code whose two midpoints it lies between, and a midpoint itself to the even one of its codes.
This fixes the code, makes it the best one there is, and says where a code range begins and ends.
Codes are not bounded here: that infinity takes the place of all large ones is a last step.
-/
namespace ExactDecimal.BinaryFormat

/-- Twice the midpoint between the number of a code and the next one. -/
def doubleMidpoint (f : BinaryFormat) (code : Nat) : Nat := f.units code + f.units (code + 1)

theorem doubleMidpoint_strictMono (f : BinaryFormat) : StrictMono f.doubleMidpoint :=
  fun _ _ h => Nat.add_lt_add (f.units_strictMono h) (f.units_strictMono (Nat.succ_lt_succ h))

/-- The code to which `x` units are rounded. -/
structure RoundsTo (f : BinaryFormat) (x : ℚ) (code : Nat) : Prop where
  above : ∀ k, k < code → (f.doubleMidpoint k : ℚ) ≤ 2 * x
  below : 2 * x ≤ f.doubleMidpoint code
  even : ∀ k, 2 * x = f.doubleMidpoint k → code % 2 = 0

variable {f : BinaryFormat} {x : ℚ} {code : Nat}

theorem midpoint_lt_iff {j k : Nat} : (f.doubleMidpoint j : ℚ) < f.doubleMidpoint k ↔ j < k := by
  rw [Nat.cast_lt, f.doubleMidpoint_strictMono.lt_iff_lt]

theorem midpoint_le_iff {j k : Nat} : (f.doubleMidpoint j : ℚ) ≤ f.doubleMidpoint k ↔ j ≤ k := by
  rw [Nat.cast_le, f.doubleMidpoint_strictMono.le_iff_le]

theorem units_le_iff {j k : Nat} : (f.units j : ℚ) ≤ f.units k ↔ j ≤ k := by
  rw [Nat.cast_le, f.units_strictMono.le_iff_le]

theorem units_lt_iff {j k : Nat} : (f.units j : ℚ) < f.units k ↔ j < k := by
  rw [Nat.cast_lt, f.units_strictMono.lt_iff_lt]

theorem cast_doubleMidpoint (f : BinaryFormat) (k : Nat) :
    (f.doubleMidpoint k : ℚ) = f.units k + f.units (k + 1) := Nat.cast_add _ _

theorem midpoint_lt_units {j k : Nat} (h : k < j) : (f.doubleMidpoint k : ℚ) < 2 * f.units j := by
  have hk : (f.units k : ℚ) < f.units j := units_lt_iff.mpr h
  have hk' : (f.units (k + 1) : ℚ) ≤ f.units j := units_le_iff.mpr h
  rw [cast_doubleMidpoint]
  linarith

theorem units_lt_midpoint {j k : Nat} (h : j ≤ k) : 2 * (f.units j : ℚ) < f.doubleMidpoint k := by
  have hk : (f.units j : ℚ) ≤ f.units k := units_le_iff.mpr h
  have hk' : (f.units j : ℚ) < f.units (k + 1) := units_lt_iff.mpr (by omega)
  rw [cast_doubleMidpoint]
  linarith

/-! ## From the number below -/

section Floor

variable (hl : (f.units code : ℚ) ≤ x) (hu : x < f.units (code + 1))

include hl in
theorem roundsTo_of_below (h : 2 * x ≤ f.doubleMidpoint code)
    (he : 2 * x = f.doubleMidpoint code → code % 2 = 0) : RoundsTo f x code where
  above k hk := by
    have := midpoint_lt_units (f := f) hk
    linarith
  below := h
  even k hk := by
    obtain hlt | rfl | hgt := lt_trichotomy k code
    · have := midpoint_lt_units (f := f) hlt
      linarith
    · exact he hk
    · have := (midpoint_lt_iff (f := f)).mpr hgt
      linarith

include hu in
theorem roundsTo_of_above (h : f.doubleMidpoint code ≤ 2 * x)
    (he : 2 * x = f.doubleMidpoint code → code % 2 = 1) : RoundsTo f x (code + 1) where
  above k hk := (midpoint_le_iff.mpr (Nat.le_of_lt_succ hk)).trans h
  below := by
    have := units_lt_midpoint (f := f) (le_refl (code + 1))
    linarith
  even k hk := by
    obtain hlt | rfl | hgt := lt_trichotomy k code
    · have := (midpoint_lt_iff (f := f)).mpr hlt
      linarith
    · have := he hk
      omega
    · have := units_lt_midpoint (f := f) (Nat.succ_le_of_lt hgt)
      rw [Nat.succ_eq_add_one] at this
      linarith

end Floor

/-- The numbers of the format round to themselves. -/
theorem roundsTo_units (f : BinaryFormat) (k : Nat) : RoundsTo f (f.units k) k := by
  have hk := units_lt_midpoint (f := f) (le_refl k)
  exact roundsTo_of_below le_rfl hk.le (fun he => absurd he hk.ne)

/-! The same for fractions, as inequalities between integers. -/

section Fraction

variable {n d : Nat} (hd : 0 < d)

include hd

theorem two_mul_div_le_iff {m : Nat} : 2 * ((n : ℚ) / d) ≤ m ↔ 2 * n ≤ m * d := by
  rw [← mul_div_assoc, div_le_iff₀ (Nat.cast_pos.mpr hd)]
  exact_mod_cast Iff.rfl

theorem le_two_mul_div_iff {m : Nat} : (m : ℚ) ≤ 2 * (n / d) ↔ m * d ≤ 2 * n := by
  rw [← mul_div_assoc, le_div_iff₀ (Nat.cast_pos.mpr hd)]
  exact_mod_cast Iff.rfl

theorem roundsTo_div_of_below (hl : f.units code * d ≤ n)
    (h : 2 * n ≤ f.doubleMidpoint code * d)
    (he : 2 * n = f.doubleMidpoint code * d → code % 2 = 0) : RoundsTo f (n / d) code := by
  apply roundsTo_of_below
  · rw [le_div_iff₀ (Nat.cast_pos.mpr hd)]
    exact_mod_cast hl
  · exact (two_mul_div_le_iff hd).mpr h
  · intro heq
    exact he (le_antisymm h ((le_two_mul_div_iff hd).mp heq.ge))

theorem roundsTo_div_of_above (hu : n < f.units (code + 1) * d)
    (h : f.doubleMidpoint code * d ≤ 2 * n)
    (he : 2 * n = f.doubleMidpoint code * d → code % 2 = 1) : RoundsTo f (n / d) (code + 1) := by
  apply roundsTo_of_above
  · rw [div_lt_iff₀ (Nat.cast_pos.mpr hd)]
    exact_mod_cast hu
  · exact (le_two_mul_div_iff hd).mpr h
  · intro heq
    exact he (le_antisymm ((two_mul_div_le_iff hd).mp heq.le) h)

end Fraction

namespace RoundsTo

theorem le_iff_of_even (h : RoundsTo f x code) {k : Nat} (hk : k % 2 = 0) :
    code ≤ k ↔ 2 * x ≤ f.doubleMidpoint k := by
  constructor
  · intro hle
    exact h.below.trans (midpoint_le_iff.mpr hle)
  · intro hle
    by_contra hlt
    have heq := le_antisymm hle (h.above k (by omega))
    -- a tie goes to an even code, so not to the one right after `k`
    have heven := h.even k heq
    have hnext := h.above (k + 1) (by omega)
    rw [heq, midpoint_le_iff] at hnext
    omega

theorem le_iff_of_odd (h : RoundsTo f x code) {k : Nat} (hk : k % 2 = 1) :
    code ≤ k ↔ 2 * x < f.doubleMidpoint k := by
  constructor
  · intro hle
    refine lt_of_le_of_ne (h.below.trans (midpoint_le_iff.mpr hle)) ?_
    intro heq
    have heven := h.even k heq
    have hge := h.below
    rw [heq, midpoint_le_iff] at hge
    omega
  · intro hlt
    by_contra hle
    exact absurd (h.above k (by omega)) (not_le.mpr hlt)

theorem le_of_roundsTo (h : RoundsTo f x code) {code' : Nat} (h' : RoundsTo f x code') :
    code ≤ code' := by
  obtain hp | hp := Nat.mod_two_eq_zero_or_one code'
  · exact (h.le_iff_of_even hp).mpr h'.below
  · refine (h.le_iff_of_odd hp).mpr (lt_of_le_of_ne h'.below ?_)
    intro heq
    have := h'.even code' heq
    omega

theorem unique (h : RoundsTo f x code) {code' : Nat} (h' : RoundsTo f x code') : code = code' :=
  le_antisymm (h.le_of_roundsTo h') (h'.le_of_roundsTo h)

/-- What lies between two numbers that round to a code rounds to it as well. -/
theorem of_between {y z : ℚ} (hx : RoundsTo f x code) (hz : RoundsTo f z code) (hxy : x ≤ y)
    (hyz : y ≤ z) : RoundsTo f y code where
  above k hk := by
    have := hx.above k hk
    linarith
  below := by
    have := hz.below
    linarith
  even k hk := by
    have hbelow := hz.below
    obtain hlt | hge := Nat.lt_or_ge k code
    · -- a midpoint below the code cannot be passed from `x` on
      have habove := hx.above k hlt
      exact hx.even k (by linarith)
    · have hle := midpoint_le_iff (f := f).mpr hge
      exact hz.even k (by linarith)

/-- No number below is as far up as the mirror image of the one that is taken. -/
theorem add_le_of_lt (h : RoundsTo f x code) {k : Nat} (hk : k < code) :
    (f.units k : ℚ) + f.units code ≤ 2 * x := by
  obtain ⟨j, rfl⟩ := Nat.exists_eq_add_one_of_ne_zero (by omega : code ≠ 0)
  have hj := h.above j (Nat.lt_succ_self j)
  have hkj : (f.units k : ℚ) ≤ f.units j := units_le_iff.mpr (by omega)
  rw [cast_doubleMidpoint] at hj
  linarith

theorem le_add_of_lt (h : RoundsTo f x code) {k : Nat} (hk : code < k) :
    2 * x ≤ f.units k + f.units code := by
  have hc := h.below
  have hkc : (f.units (code + 1) : ℚ) ≤ f.units k := units_le_iff.mpr hk
  rw [cast_doubleMidpoint] at hc
  linarith

theorem nearest (h : RoundsTo f x code) (k : Nat) : |x - f.units code| ≤ |x - f.units k| := by
  obtain hlt | rfl | hgt := lt_trichotomy k code
  · have hsum := h.add_le_of_lt hlt
    have hk : (f.units k : ℚ) < f.units code := units_lt_iff.mpr hlt
    calc
      |x - f.units code| ≤ x - f.units k := abs_le.mpr ⟨by linarith, by linarith⟩
      _ ≤ |x - f.units k| := le_abs_self _
  · exact le_rfl
  · have hsum := h.le_add_of_lt hgt
    have hk : (f.units code : ℚ) < f.units k := units_lt_iff.mpr hgt
    calc
      |x - f.units code| ≤ f.units k - x := abs_le.mpr ⟨by linarith, by linarith⟩
      _ ≤ |f.units k - x| := le_abs_self _
      _ = |x - f.units k| := abs_sub_comm _ _

theorem even_of_tie (h : RoundsTo f x code) {k : Nat} (hk : k ≠ code)
    (ht : |x - f.units code| = |x - f.units k|) : code % 2 = 0 := by
  have hsum : 2 * x = f.units k + f.units code := by
    obtain heq | heq := abs_eq_abs.mp ht
    · have hle := units_le_iff (f := f) (j := k) (k := code)
      have hge := units_le_iff (f := f) (j := code) (k := k)
      have := hle.mp (by linarith)
      have := hge.mp (by linarith)
      omega
    · linarith
  -- the other number is the neighbour on the other side of the midpoint
  obtain hlt | hgt := lt_or_gt_of_ne hk
  · obtain ⟨j, rfl⟩ := Nat.exists_eq_add_one_of_ne_zero (by omega : code ≠ 0)
    have hj := h.above j (Nat.lt_succ_self j)
    rw [hsum, cast_doubleMidpoint, add_le_add_iff_right, units_le_iff] at hj
    obtain rfl : k = j := by omega
    exact h.even k (by rw [hsum, cast_doubleMidpoint])
  · have hc := h.below
    rw [hsum, cast_doubleMidpoint, add_comm, add_le_add_iff_left, units_le_iff] at hc
    obtain rfl : k = code + 1 := by omega
    exact h.even code (by rw [hsum, cast_doubleMidpoint, add_comm])

end RoundsTo

end ExactDecimal.BinaryFormat
