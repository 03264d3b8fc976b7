import ExactDecimal.Proofs.Congruence
/-!
Moves of the decimal point, one and many. To the left a move only raises the scale, which may go out
of range. To the right it lowers the scale as far as zero and then multiplies the magnitude, so that
it has a result wherever the power of ten has one: everywhere, except for the longest of all moves
from the lowest of all scales. Each move multiplies the value by its power of ten, and a run of moves
by the product of these.
-/
namespace ExactDecimal

/-- A move of the point to one side, by as many places as a scale can have; a negative number of
places is a move to the other side. -/
inductive PointMove where
  | left (n : Int) (fits : ScaleFits n := by decide)
  | right (n : Int) (fits : ScaleFits n := by decide)
  deriving Repr

namespace PointMove

/-- How far the point goes to the right. -/
def shift : PointMove → Int
  | left n _ => -n
  | right n _ => n

def step (move : PointMove) (d : Decimal) : Except ArithmeticError Decimal :=
  match move with
  | left n _ => d.movePointLeft n
  | right n _ => d.movePointRight n

/-- The moves in turn; the first that fails ends the run. -/
def run : List PointMove → Decimal → Except ArithmeticError Decimal
  | [], d => .ok d
  | move :: rest, d => move.step d >>= run rest

/-- How far the point goes to the right in a run. -/
def netShift (moves : List PointMove) : Int := (moves.map shift).sum

@[simp] theorem run_nil (d : Decimal) : run [] d = .ok d := rfl
@[simp] theorem run_cons (move : PointMove) (rest : List PointMove) (d : Decimal) :
    run (move :: rest) d = move.step d >>= run rest := rfl
@[simp] theorem netShift_nil : netShift [] = 0 := rfl
@[simp] theorem netShift_cons (move : PointMove) (rest : List PointMove) :
    netShift (move :: rest) = move.shift + netShift rest := rfl

theorem step_eq_shiftPoint (move : PointMove) (d : Decimal) :
    move.step d = d.shiftPoint move.shift := by
  cases move <;> rfl

/-- The longest move goes to the right, although it is asked for as one to the left. -/
theorem shift_le (move : PointMove) : move.shift ≤ 2147483648 := by
  cases move with
  | left n fits =>
    change -n ≤ _
    omega
  | right n fits =>
    change n ≤ _
    omega

theorem shift_eq_longest_iff {move : PointMove} :
    move.shift = 2147483648 ↔ move = left (-2147483648) := by
  cases move with
  | left n fits =>
    simp only [shift, left.injEq]
    omega
  | right n fits =>
    simp only [shift, reduceCtorEq, iff_false]
    omega

end PointMove

namespace Decimal

/-! ## One move -/

section Shift

variable {d e : Decimal} {right : Int}

theorem shiftPoint_eq_ok_iff_of_nonpos (h : right ≤ 0) :
    d.shiftPoint right = .ok e ↔ e.magnitude = d.magnitude ∧ e.scale = d.scale - right := by
  rw [shiftPoint_of_le (.inl h), ofParts_eq_ok_iff]

theorem shiftPoint_eq_error_iff_of_nonpos (h : right ≤ 0) {cause : ArithmeticError} :
    d.shiftPoint right = .error cause ↔
      cause = .scaleOverflow ∧ 2147483647 < d.scale - right := by
  have hd := d.scale_fits
  rw [shiftPoint_of_le (.inl h), ofParts_eq_error_iff]
  apply and_congr_right
  intro _
  omega

/-- The power of ten is too large only if the scales are as far apart as they can be. -/
theorem shiftPoint_eq_error_iff_of_pos (h : 0 < right) {cause : ArithmeticError} :
    d.shiftPoint right = .error cause ↔
      cause = .scaleOverflow ∧ 4294967296 ≤ right - d.scale := by
  have hd := d.scale_fits
  obtain hs | hs := Int.lt_or_le d.scale right
  · obtain hk | hk := Int.lt_or_le (right - d.scale) 4294967296
    · simp [shiftPoint_of_lt_of_fits h hs hk, hk]
    · simp [shiftPoint_of_lt_of_not_fits h hs hk, hk, eq_comm]
  · rw [shiftPoint_of_le (.inr hs), ofParts_eq_error_iff]
    apply and_congr_right
    intro _
    omega

theorem scale_of_shiftPoint_of_pos (h : 0 < right) (he : d.shiftPoint right = .ok e) :
    e.scale = Max.max (d.scale - right) 0 := by
  obtain ⟨hr, -, hs⟩ | ⟨-, hs, rfl⟩ := shiftPoint_cases he
  · omega
  · change 0 = _
    omega

theorem scale_nonneg_of_shiftPoint (hd : 0 ≤ d.scale) (h : d.shiftPoint right = .ok e) :
    0 ≤ e.scale := by
  obtain ⟨hr, -, hs⟩ | ⟨-, -, rfl⟩ := shiftPoint_cases h
  · omega
  · exact le_rfl

/-- Nothing but a scale can be out of range. -/
theorem eq_scaleOverflow_of_shiftPoint {cause : ArithmeticError}
    (h : d.shiftPoint right = .error cause) : cause = .scaleOverflow := by
  obtain hr | hr := Int.lt_or_le 0 right
  · exact ((shiftPoint_eq_error_iff_of_pos hr).mp h).1
  · exact ((shiftPoint_eq_error_iff_of_nonpos hr).mp h).1

/-- What a move to the left has done, the same move to the right undoes. -/
theorem shiftPoint_of_shiftPoint_neg (hd : 0 ≤ d.scale) (h0 : 0 ≤ right)
    (h : d.shiftPoint (-right) = .ok e) : e.shiftPoint right = .ok d := by
  obtain ⟨hm, hs⟩ := (shiftPoint_eq_ok_iff_of_nonpos (by omega)).mp h
  rw [shiftPoint_of_le (.inr (by omega)), ofParts_eq_ok_iff]
  exact ⟨hm.symm, by omega⟩

end Shift

end Decimal

/-! ## Runs -/

namespace PointMove

open Decimal

theorem step_eq_error_iff_of_pos {move : PointMove} (h : 0 < move.shift) {d : Decimal}
    {cause : ArithmeticError} : move.step d = .error cause ↔
      cause = .scaleOverflow ∧ move = left (-2147483648) ∧ d.scale = -2147483648 := by
  have hd := d.scale_fits
  have hle := move.shift_le
  rw [step_eq_shiftPoint, shiftPoint_eq_error_iff_of_pos h, ← shift_eq_longest_iff]
  apply and_congr_right
  intro _
  omega

theorem run_append (before after : List PointMove) (d : Decimal) :
    run (before ++ after) d = run before d >>= run after := by
  induction before generalizing d with
  | nil => rfl
  | cons move rest ih =>
    rw [List.cons_append, run_cons, run_cons]
    cases move.step d with
    | error cause => rfl
    | ok next => exact ih next

theorem value_of_run {moves : List PointMove} {d e : Decimal} (h : run moves d = .ok e) :
    e.value = d.value * 10 ^ netShift moves := by
  induction moves generalizing d with
  | nil =>
    cases h
    rw [netShift_nil, zpow_zero, mul_one]
  | cons move rest ih =>
    obtain ⟨next, hnext, h⟩ := bind_eq_ok h
    rw [step_eq_shiftPoint] at hnext
    rw [ih h, value_of_shiftPoint hnext, netShift_cons, zpow_add₀ (by decide), mul_assoc]

theorem scale_nonneg_of_run {moves : List PointMove} {d e : Decimal} (hd : 0 ≤ d.scale)
    (h : run moves d = .ok e) : 0 ≤ e.scale := by
  induction moves generalizing d with
  | nil =>
    cases h
    exact hd
  | cons move rest ih =>
    obtain ⟨next, hnext, h⟩ := bind_eq_ok h
    rw [step_eq_shiftPoint] at hnext
    exact ih (scale_nonneg_of_shiftPoint hd hnext) h

/-- A move to the left keeps the magnitude and raises the scale, and fails exactly if that goes out
of range. A move to the right lowers the scale as far as zero, and fails only as the longest move
there is from the lowest scale. A run that succeeds has multiplied the value by the power of ten of
its net move, and if it began at a scale that is not negative it has not passed through one that is.
From such a scale a move to the left and the same move to the right cancel. -/
theorem moves_multiply_by_powers (d : Decimal) :
    (∀ move : PointMove, move.shift ≤ 0 →
      (∀ e, move.step d = .ok e ↔
        e.magnitude = d.magnitude ∧ e.scale = d.scale - move.shift) ∧
      (∀ cause, move.step d = .error cause ↔
        cause = .scaleOverflow ∧ 2147483647 < d.scale - move.shift)) ∧
    (∀ move : PointMove, 0 < move.shift →
      (∀ e, move.step d = .ok e →
        e.scale = Max.max (d.scale - move.shift) 0 ∧ e.value = d.value * 10 ^ move.shift) ∧
      (∀ cause, move.step d = .error cause ↔
        cause = .scaleOverflow ∧ move = left (-2147483648) ∧ d.scale = -2147483648)) ∧
    (∀ (moves : List PointMove) (e : Decimal), run moves d = .ok e →
      e.value = d.value * 10 ^ netShift moves ∧
      (0 ≤ d.scale → ∀ before after, moves = before ++ after →
        ∃ between, run before d = .ok between ∧ 0 ≤ between.scale)) ∧
    (∀ (n : Int) (e : Decimal), 0 ≤ d.scale → 0 ≤ n → d.movePointLeft n = .ok e →
      e.movePointRight n = .ok d) := by
  refine ⟨?_, ?_, ?_, ?_⟩
  · intro move h
    simp only [step_eq_shiftPoint]
    exact ⟨fun _ => shiftPoint_eq_ok_iff_of_nonpos h, fun _ => shiftPoint_eq_error_iff_of_nonpos h⟩
  · intro move h
    refine ⟨fun e he => ?_, fun _ => step_eq_error_iff_of_pos h⟩
    rw [step_eq_shiftPoint] at he
    exact ⟨scale_of_shiftPoint_of_pos h he, value_of_shiftPoint he⟩
  · intro moves e h
    refine ⟨value_of_run h, ?_⟩
    rintro hd before after rfl
    rw [run_append] at h
    obtain ⟨between, hb, -⟩ := bind_eq_ok h
    exact ⟨between, hb, scale_nonneg_of_run hd hb⟩
  · intro n e hd h0 h
    exact shiftPoint_of_shiftPoint_neg hd h0 h

/-- The longest move has no result from the lowest scale, and one at scale zero from the next; and
`1.5` over two moves that take it to a whole number and back. -/
theorem moves_multiply_by_powers_at_ends :
    step (left (-2147483648)) ⟨7, -2147483648, by decide⟩ = .error .scaleOverflow ∧
    (∀ cause, step (left (-2147483648)) ⟨7, -2147483647, by decide⟩ ≠ .error cause) ∧
    (∃ e, run [right 3, left 5] ⟨15, 1, by decide⟩ = .ok e ∧
      e.value = Decimal.value ⟨15, 1, by decide⟩ * 10 ^ (-2 : Int)) ∧
    movePointRight ⟨15, 2147483647, by decide⟩ 2147483646 = .ok ⟨15, 1, by decide⟩ := by
  refine ⟨?_, ?_, ⟨⟨1500, 5, by decide⟩, by decide, ?_⟩, ?_⟩
  · exact (((moves_multiply_by_powers _).2.1 _ (by decide)).2 _).mpr ⟨rfl, rfl, rfl⟩
  · intro cause h
    obtain ⟨-, -, hs⟩ := (((moves_multiply_by_powers _).2.1 _ (by decide)).2 cause).mp h
    exact absurd hs (by decide)
  · exact ((moves_multiply_by_powers _).2.2.1 [right 3, left 5] _ (by decide)).1
  · exact (moves_multiply_by_powers _).2.2.2 2147483646 _ (by decide) (by decide) (by decide)

end PointMove

end ExactDecimal
