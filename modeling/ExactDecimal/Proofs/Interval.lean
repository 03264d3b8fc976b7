import ExactDecimal.Binary.Shortest
import ExactDecimal.Proofs.Midpoints
import Mathlib.Tactic.Ring
/-!
The decimals that round to a code form the interval between its two midpoints, ends included if the
code is even. That is how the search for the shortest decimal sees them, in quarters of a unit. Any
two numbers in one interval are at most one step of the format apart.
-/
namespace ExactDecimal

namespace BinaryFormat

variable {f : BinaryFormat} {x : ℚ} {j : Nat}

/-- Only the two midpoints next to a code matter to it. -/
theorem roundsTo_succ_iff : RoundsTo f x (j + 1) ↔
    if (j + 1) % 2 = 0 then (f.doubleMidpoint j : ℚ) ≤ 2 * x ∧ 2 * x ≤ f.doubleMidpoint (j + 1)
    else (f.doubleMidpoint j : ℚ) < 2 * x ∧ 2 * x < f.doubleMidpoint (j + 1) := by
  constructor
  · intro h
    have habove := h.above j (Nat.lt_succ_self j)
    split
    · exact ⟨habove, h.below⟩
    · rename_i hodd
      exact ⟨lt_of_le_of_ne habove fun he => hodd (h.even j he.symm),
        lt_of_le_of_ne h.below fun he => hodd (h.even (j + 1) he)⟩
  · intro h
    split at h
    · rename_i heven
      refine ⟨fun k hk => ?_, h.2, fun _ _ => heven⟩
      exact (midpoint_le_iff.mpr (Nat.le_of_lt_succ hk)).trans h.1
    · refine ⟨fun k hk => ?_, h.2.le, fun k hk => ?_⟩
      · exact (midpoint_le_iff.mpr (Nat.le_of_lt_succ hk)).trans h.1.le
      · -- no midpoint lies strictly between the two
        rw [hk, midpoint_lt_iff, midpoint_lt_iff] at h
        omega

/-- Below a power of two the step is half as long, unless it is the least one already. -/
theorem pow2_shift_pred (f : BinaryFormat) (j : Nat) :
    pow2 (f.shift (j + 1)) =
      if f.significand (j + 1) = pow2 f.fractionBits ∧ 0 < f.shift (j + 1) then 2 * pow2 (f.shift j)
      else pow2 (f.shift j) := by
  have hc := f.code_eq j
  have hs := f.significand_lt j
  have hn := f.significand_normal j
  by_cases hfull : f.significand j + 1 < 2 * pow2 f.fractionBits
  · have hcode : j + 1 = f.shift j * pow2 f.fractionBits + (f.significand j + 1) := by omega
    have hshift : f.shift (j + 1) = f.shift j := by
      conv_lhs => rw [hcode]
      exact shift_add hfull (by omega)
    have hsig : f.significand (j + 1) = f.significand j + 1 := by
      conv_lhs => rw [hcode]
      exact significand_add hfull (by omega)
    rw [hshift, hsig, if_neg (by omega)]
  · have hcode : j + 1 = (f.shift j + 1) * pow2 f.fractionBits + pow2 f.fractionBits := by
      rw [Nat.add_mul]
      omega
    have hp := pow2_pos f.fractionBits
    have hshift : f.shift (j + 1) = f.shift j + 1 := by
      conv_lhs => rw [hcode]
      exact shift_add (by omega) (.inr le_rfl)
    have hsig : f.significand (j + 1) = pow2 f.fractionBits := by
      conv_lhs => rw [hcode]
      exact significand_add (by omega) (.inr le_rfl)
    rw [hshift, hsig, if_pos ⟨rfl, Nat.succ_pos _⟩, pow2_succ, Nat.mul_comm]

theorem pow2_shift_le (f : BinaryFormat) (j : Nat) : pow2 (f.shift j) ≤ pow2 (f.shift (j + 1)) := by
  rw [pow2_shift_pred]
  split
  · omega
  · exact le_rfl

/-- A number is at most half a step of the format away from the one to which it is rounded. -/
theorem RoundsTo.two_mul_abs_sub_le (h : RoundsTo f x (j + 1)) :
    2 * |x - f.units (j + 1)| ≤ pow2 (f.shift (j + 1)) := by
  have habove := h.above j (Nat.lt_succ_self j)
  have hbelow := h.below
  have hprev : (f.units (j + 1) : ℚ) ≤ f.units j + pow2 (f.shift (j + 1)) := by
    rw [f.units_succ j, Nat.cast_add]
    exact add_le_add_right (Nat.cast_le.mpr (f.pow2_shift_le j)) _
  have hnext : (f.units (j + 1 + 1) : ℚ) = f.units (j + 1) + pow2 (f.shift (j + 1)) := by
    rw [f.units_succ (j + 1), Nat.cast_add]
  rw [cast_doubleMidpoint] at habove hbelow
  have hhalf : |x - f.units (j + 1)| ≤ pow2 (f.shift (j + 1)) / 2 :=
    abs_le.mpr ⟨by linarith, by linarith⟩
  linarith

/-- Numbers that round to one code are at most one step of the format apart. -/
theorem RoundsTo.abs_sub_le {y : ℚ} (hx : RoundsTo f x (j + 1)) (hy : RoundsTo f y (j + 1)) :
    |x - y| ≤ pow2 (f.shift (j + 1)) := by
  have hxu := hx.two_mul_abs_sub_le
  have hyu := hy.two_mul_abs_sub_le
  calc
    |x - y| = |(x - f.units (j + 1)) - (y - f.units (j + 1))| := by rw [sub_sub_sub_cancel_right]
    _ ≤ |x - f.units (j + 1)| + |y - f.units (j + 1)| := abs_sub _ _
    _ ≤ pow2 (f.shift (j + 1)) := by linarith

end BinaryFormat

namespace RoundingInterval

/-! ## Intervals of quarters -/

theorem holds_iff {i : RoundingInterval} {scaling x : Nat} : i.holds scaling x = true ↔
    if i.closed = true then i.low * scaling ≤ x ∧ x ≤ i.high * scaling
    else i.low * scaling < x ∧ x < i.high * scaling := by
  rw [holds]
  split
  · rw [Bool.and_eq_true, decide_eq_true_iff, decide_eq_true_iff]
  · rw [Bool.and_eq_true, decide_eq_true_iff, decide_eq_true_iff]

theorem holds_of_between {i : RoundingInterval} {scaling x y z : Nat}
    (hx : i.holds scaling x = true) (hz : i.holds scaling z = true) (hxy : x ≤ y) (hyz : y ≤ z) :
    i.holds scaling y = true := by
  rw [holds_iff] at *
  split at hx
  · rename_i hc
    rw [if_pos hc] at hz
    rw [if_pos hc]
    omega
  · rename_i hc
    rw [if_neg hc] at hz
    rw [if_neg hc]
    omega

variable (f : BinaryFormat) (j : Nat)

theorem middle_ofCode (code : Nat) : (ofCode f code).middle = 4 * f.units code := Nat.mul_assoc _ _ _

theorem high_ofCode (code : Nat) : (ofCode f code).high = 2 * f.doubleMidpoint code := by
  have hm := middle_ofCode f code
  have hh : (ofCode f code).high = (ofCode f code).middle + 2 * pow2 (f.shift code) := rfl
  rw [hh, hm, BinaryFormat.doubleMidpoint, f.units_succ]
  omega

theorem low_ofCode_succ : (ofCode f (j + 1)).low = 2 * f.doubleMidpoint j := by
  have hstep := f.pow2_shift_pred j
  have hsucc := f.units_succ j
  have hm : 4 * f.significand (j + 1) * pow2 (f.shift (j + 1)) = 4 * f.units (j + 1) :=
    middle_ofCode f (j + 1)
  simp only [ofCode, hm]
  rw [BinaryFormat.doubleMidpoint]
  split at hstep
  · rename_i hnarrow
    rw [if_pos hnarrow]
    omega
  · rename_i hnarrow
    rw [if_neg hnarrow]
    omega

theorem closed_ofCode (code : Nat) : (ofCode f code).closed = decide (code % 2 = 0) := by
  rw [← f.significand_mod_two]
  rfl

/-- What the interval of a code other than zero holds is what rounds to the code. -/
theorem holds_ofCode_iff {scaling : Nat} (hs : 0 < scaling) (x : Nat) :
    (ofCode f (j + 1)).holds scaling x = true ↔
      BinaryFormat.RoundsTo f (x / (4 * scaling : Nat)) (j + 1) := by
  have hq : 0 < 4 * scaling := Nat.mul_pos (by decide) hs
  have hlow : f.doubleMidpoint j * (4 * scaling) = 2 * (2 * f.doubleMidpoint j * scaling) := by ring
  have hhigh : f.doubleMidpoint (j + 1) * (4 * scaling) =
      2 * (2 * f.doubleMidpoint (j + 1) * scaling) := by ring
  rw [holds_iff, closed_ofCode, low_ofCode_succ, high_ofCode, BinaryFormat.roundsTo_succ_iff]
  by_cases heven : (j + 1) % 2 = 0
  · rw [if_pos heven, if_pos (decide_eq_true heven), BinaryFormat.le_two_mul_div_iff hq,
      BinaryFormat.two_mul_div_le_iff hq]
    omega
  · have hle := BinaryFormat.two_mul_div_le_iff hq (n := x) (m := f.doubleMidpoint j)
    have hge := BinaryFormat.le_two_mul_div_iff hq (n := x) (m := f.doubleMidpoint (j + 1))
    rw [if_neg heven, if_neg (mt of_decide_eq_true heven), lt_iff_not_ge (b := 2 * (_ : ℚ)),
      lt_iff_not_ge (a := 2 * (_ : ℚ)), hle, hge]
    omega

/-- The number itself lies in its interval. -/
theorem holds_middle {scaling : Nat} (hs : 0 < scaling) :
    (ofCode f (j + 1)).holds scaling ((ofCode f (j + 1)).middle * scaling) = true := by
  rw [holds_ofCode_iff f j hs, middle_ofCode, Nat.mul_right_comm, Nat.cast_mul,
    mul_div_cancel_left₀ _ (Nat.cast_ne_zero.mpr (by omega))]
  exact f.roundsTo_units (j + 1)

end RoundingInterval

end ExactDecimal
