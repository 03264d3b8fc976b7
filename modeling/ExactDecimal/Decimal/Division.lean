import ExactDecimal.Decimal.Basic
import ExactDecimal.Rounding
/-!
Division to a given scale, the change of scale, which is division by one, and rounding to a digit
budget. The exact quotient is an integer fraction at every scale: the dividend is multiplied up, or
the divisor is when the result has fewer places than the operands give it.
-/
namespace ExactDecimal.Decimal

/-- The magnitude of `a / b` at `scale`, which may be negative. A zero dividend comes first: it
has a quotient even by zero. -/
def quotientAt (a b : Decimal) (scale : Int) (mode : RoundingMode) : Except ArithmeticError Int :=
  if a.isZero then .ok 0
  else if b.isZero then .error .divisionByZero
  else do
    let shift := scale - a.scale + b.scale
    let up ← powerOfTen shift.toNat
    let down ← powerOfTen (-shift).toNat
    mode.roundQuotient (a.magnitude * up) (b.magnitude * down)

/-- The quotient at `scale`, rounded as `mode` says if it is not exact there. -/
def divideToScale (a b : Decimal) (scale : Int) (mode : RoundingMode) :
    Except ArithmeticError Decimal :=
  if scale < 0 then .error (.negativeScale scale)
  else a.quotientAt b scale mode >>= (ofParts · scale)

/-- The quotient at the scale of the dividend. -/
def divide (a b : Decimal) (mode : RoundingMode) : Except ArithmeticError Decimal :=
  a.divideToScale b a.scale mode

/-- The value at another scale, rounded as `mode` says. -/
def withScaleRound (d : Decimal) (scale : Int) (mode : RoundingMode) :
    Except ArithmeticError Decimal :=
  d.divideToScale one scale mode

/-- The same value at another scale; no digit may be lost. -/
def withScale (d : Decimal) (scale : Int) : Except ArithmeticError Decimal :=
  d.withScaleRound scale .unnecessary

theorem divideToScale_of_neg (a b : Decimal) {scale : Int} (h : scale < 0) (mode : RoundingMode) :
    a.divideToScale b scale mode = .error (.negativeScale scale) := by simp [divideToScale, h]

theorem divideToScale_of_nonneg (a b : Decimal) {scale : Int} (h : 0 ≤ scale)
    (mode : RoundingMode) :
    a.divideToScale b scale mode = a.quotientAt b scale mode >>= (ofParts · scale) :=
  if_neg (by omega)

theorem nonneg_of_divideToScale {a b q : Decimal} {scale : Int} {mode : RoundingMode}
    (h : a.divideToScale b scale mode = .ok q) : 0 ≤ scale := by
  obtain hneg | h0 := Int.lt_or_le scale 0
  · rw [divideToScale_of_neg a b hneg] at h
    exact nomatch h
  · exact h0

/-!
## Digit budgets

Digits are taken off on the right, which lowers the scale, below zero if need be. A carry such as
99.6 to 100 leaves one digit too many; that digit is a zero, and a second cut takes it off without
loss.
-/

/-- How many digits the magnitude has; zero has one. -/
def precision (d : Decimal) : Nat := digitCount d.magnitude.natAbs

theorem precision_pos (d : Decimal) : 0 < d.precision := digitCount_pos _

/-- Takes `chop` digits off on the right. -/
def dropDigits (d : Decimal) (chop : Nat) (mode : RoundingMode) :
    Except ArithmeticError Decimal := do
  let divisor ← powerOfTen chop
  let magnitude ← mode.roundQuotient d.magnitude divisor
  ofParts magnitude (d.scale - chop)

/-- Rounds a decimal that has `count` digits to at most `context.precision` of them. Without a
limit, or within it, nothing changes. -/
def roundCounted (d : Decimal) (count : Nat) (context : Context) :
    Except ArithmeticError Decimal :=
  let limit := context.precision
  if limit = 0 ∨ count ≤ limit then .ok d
  else do
    let cut ← d.dropDigits (count - limit) context.mode
    if cut.precision ≤ limit then .ok cut
    else cut.dropDigits (cut.precision - limit) context.mode

def round (d : Decimal) (context : Context) : Except ArithmeticError Decimal :=
  d.roundCounted d.precision context

/-- Rounding as calls that follow each other, how many there are, and what the last one gives. A
decimal within the limit is returned as it is; any other is cut to the limit, and if a carry has
left the cut one too long, that one is rounded in turn. -/
inductive RoundCalls (context : Context) :
    Nat → Decimal → Except ArithmeticError Decimal → Prop where
  | within {d : Decimal} (h : context.precision = 0 ∨ d.precision ≤ context.precision) :
    RoundCalls context 1 d (.ok d)
  | failed {d : Decimal} {e : ArithmeticError} (h0 : context.precision ≠ 0)
    (hd : context.precision < d.precision)
    (h : d.dropDigits (d.precision - context.precision) context.mode = .error e) :
    RoundCalls context 1 d (.error e)
  | cut {d cut : Decimal} (h0 : context.precision ≠ 0) (hd : context.precision < d.precision)
    (h : d.dropDigits (d.precision - context.precision) context.mode = .ok cut)
    (hc : cut.precision ≤ context.precision) : RoundCalls context 1 d (.ok cut)
  | again {d cut : Decimal} {calls : Nat} {result : Except ArithmeticError Decimal}
    (h0 : context.precision ≠ 0) (hd : context.precision < d.precision)
    (h : d.dropDigits (d.precision - context.precision) context.mode = .ok cut)
    (hc : context.precision < cut.precision) (hr : RoundCalls context calls cut result) :
    RoundCalls context (calls + 1) d result

theorem round_eq_self {d : Decimal} {context : Context}
    (h : context.precision = 0 ∨ d.precision ≤ context.precision) : d.round context = .ok d := by
  simp [round, roundCounted, h]

theorem round_of_lt {d : Decimal} {context : Context} (h : context.precision ≠ 0)
    (hd : context.precision < d.precision) :
    d.round context = d.dropDigits (d.precision - context.precision) context.mode >>= fun cut =>
      if cut.precision ≤ context.precision then .ok cut
      else cut.dropDigits (cut.precision - context.precision) context.mode := if_neg (by omega)

end ExactDecimal.Decimal
