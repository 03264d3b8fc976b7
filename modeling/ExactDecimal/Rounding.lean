import ExactDecimal.Error
/-!
The eight rounding modes, the rounding of an exact quotient to an integer, and contexts, which
pair a mode with a digit budget. A quotient is first cut off toward zero; the mode only says
whether to take one step away from zero after that. An exact quotient never asks the mode.
-/
namespace ExactDecimal

inductive RoundingMode where
  | up | down | ceiling | floor | halfUp | halfDown | halfEven | unnecessary
  deriving DecidableEq, Repr

namespace RoundingMode

instance : Inhabited RoundingMode := ⟨halfUp⟩

/-- The modes in the order of their codes. -/
def all : List RoundingMode :=
  [up, down, ceiling, floor, halfUp, halfDown, halfEven, unnecessary]

def code : RoundingMode → Nat
  | up => 0
  | down => 1
  | ceiling => 2
  | floor => 3
  | halfUp => 4
  | halfDown => 5
  | halfEven => 6
  | unnecessary => 7

def ofCode? (code : Int) : Option RoundingMode :=
  all.find? fun mode => mode.code = code

@[simp] theorem ofCode?_code (mode : RoundingMode) : ofCode? mode.code = some mode := by
  cases mode <;> rfl

def ofCode (code : Int) : Except Failure RoundingMode :=
  (ofCode? code).elim (.error (.roundingMode code)) .ok

def name : RoundingMode → String
  | up => "Up"
  | down => "Down"
  | ceiling => "Ceiling"
  | floor => "Floor"
  | halfUp => "HalfUp"
  | halfDown => "HalfDown"
  | halfEven => "HalfEven"
  | unnecessary => "Unnecessary"

/-- Whether an inexact quotient, already cut off toward zero, moves one step away from zero.
`half` compares what was cut off with one half of a step, and `odd` is the parity of what was
kept. There is no answer if the mode allows nothing to be cut off. -/
def awayFromZero? (mode : RoundingMode) (negative odd : Bool) (half : Ordering) : Option Bool :=
  match mode with
  | up => some true
  | down => some false
  | ceiling => some !negative
  | floor => some negative
  | halfUp => some half.isGE
  | halfDown => some half.isGT
  | halfEven => some (half.isGT || half.isEq && odd)
  | unnecessary => none

/-- The quotient `n / d` as an integer, where `d` is not zero. -/
def roundQuotient (mode : RoundingMode) (n d : Int) : Except ArithmeticError Int :=
  let quotient := n.tdiv d
  let remainder := n.tmod d
  if remainder = 0 then .ok quotient
  else
    let negative := decide (n < 0) != decide (d < 0)
    let half := compare (2 * remainder.natAbs) d.natAbs
    match mode.awayFromZero? negative (quotient % 2 = 1) half with
    | none => .error .roundingNecessary
    | some false => .ok quotient
    | some true => .ok (if negative then quotient - 1 else quotient + 1)

theorem roundQuotient_exact (mode : RoundingMode) {n d : Int} (h : n.tmod d = 0) :
    mode.roundQuotient n d = .ok (n.tdiv d) := by simp [roundQuotient, h]

/-- An inexact quotient fails only in the mode that asks for an exact one. -/
theorem roundQuotient_eq_error {mode : RoundingMode} {n d : Int} {e : ArithmeticError}
    (h : mode.roundQuotient n d = .error e) : e = .roundingNecessary := by
  simp only [roundQuotient] at h
  split at h
  · exact nomatch h
  · split at h
    · cases h
      rfl
    · exact nomatch h
    · exact nomatch h

end RoundingMode

/-- At most `precision` digits, where zero sets no limit, and how to round to them. -/
structure Context where
  precision : Nat
  mode : RoundingMode
  deriving DecidableEq, Repr

namespace Context

def unlimited : Context := ⟨0, .halfUp⟩
def decimal32 : Context := ⟨7, .halfEven⟩
def decimal64 : Context := ⟨16, .halfEven⟩
def decimal128 : Context := ⟨34, .halfEven⟩

instance : Inhabited Context := ⟨unlimited⟩

end Context

end ExactDecimal
