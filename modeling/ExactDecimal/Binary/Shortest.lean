import ExactDecimal.Binary.Format
import ExactDecimal.Text
/-!
The shortest decimal that reads back as a given binary number. It is the one that the standard
printer of binary numbers writes, and its text is read like any other. The printer looks for it on
the grids of the powers of ten, from coarse to fine: the first grid with a point that rounds to the
number gives the fewest digits. Only the two grid points next to the number need a look. Of two that
both round to it the nearer is taken, and the upper one if they are equally near.
-/
namespace ExactDecimal

/-- The decimals that round to one binary number, in quarters of a unit so that half the way to a
neighbour is an integer. The ends belong to it when the significand is even. -/
structure RoundingInterval where
  low : Nat
  middle : Nat
  high : Nat
  closed : Bool
  deriving DecidableEq, Repr

namespace RoundingInterval

/-- The interval of a code. Below a power of two the neighbour is only half as far away, unless
the spacing is the least one already. -/
def ofCode (f : BinaryFormat) (code : Nat) : RoundingInterval :=
  let step := pow2 (f.shift code)
  let middle := 4 * f.significand code * step
  let narrow := f.significand code = pow2 f.fractionBits ∧ 0 < f.shift code
  ⟨middle - (if narrow then step else 2 * step), middle, middle + 2 * step,
    f.significand code % 2 = 0⟩

/-- Whether `x / scaling` quarters lie in the interval. -/
def holds (i : RoundingInterval) (scaling x : Nat) : Bool :=
  if i.closed then i.low * scaling ≤ x && x ≤ i.high * scaling
  else i.low * scaling < x && x < i.high * scaling

/-- The better of the two grid points next to the middle, where neighbouring points are
`spacing / scaling` quarters apart. -/
def gridPoint? (i : RoundingInterval) (spacing scaling : Nat) : Option Nat :=
  let below := i.middle * scaling / spacing
  let rest := i.middle * scaling % spacing
  match i.holds scaling (below * spacing), i.holds scaling ((below + 1) * spacing) with
  | true, true => some (if 2 * rest < spacing then below else below + 1)
  | true, false => some below
  | false, true => some (below + 1)
  | false, false => none

/-- The first grid point among the powers `10 ^ k / 10 ^ depth`, …, `1 / 10 ^ depth`, with the `k`
at which it was found. The middle itself is a point of the last grid. -/
def coarsest (i : RoundingInterval) (depth : Nat) : Nat → Nat × Nat
  | 0 => (i.middle * pow10 depth / pow2 (depth + 2), 0)
  | k + 1 =>
    match i.gridPoint? (pow2 (depth + 2) * pow10 (k + 1 - depth)) (pow10 (depth - (k + 1))) with
    | some point => (point, k + 1)
    | none => i.coarsest depth k

end RoundingInterval

/-- Digits with a point behind the first `position` of them. Zeros fill up the places between the
point and the digits, on either side, and one stands before a point that has no digit there. -/
def setPoint (digits : List Char) (position : Int) : List Char :=
  if position ≤ 0 then '0' :: '.' :: (List.replicate (-position).toNat '0' ++ digits)
  else if position < digits.length then
    digits.take position.toNat ++ '.' :: digits.drop position.toNat
  else digits ++ List.replicate (position - digits.length).toNat '0'

namespace BinaryFormat

/-- The text of the number with a finite code, without a sign and never with an exponent. The
coarsest grid is that of `10 ^ 309`, beyond every finite number. -/
def printCode (f : BinaryFormat) (code : Nat) : List Char :=
  if code = 0 then ['0']
  else
    let found := (RoundingInterval.ofCode f code).coarsest f.depth (f.depth + 309)
    setPoint (numeral found.1) (digitCount found.1 + found.2 - f.depth)

/-- The text of finite bits; a zero below zero keeps its sign. -/
def toText {f : BinaryFormat} (bits : f.Bits) : String :=
  let digits := f.printCode (code bits)
  String.ofList (if isNegative bits then '-' :: digits else digits)

end BinaryFormat

namespace Decimal

/-- The shortest decimal that rounds to a binary number, if that is finite, read from its text. -/
def ofBinaryShortest {f : BinaryFormat} (bits : f.Bits) : Except ParseError Decimal :=
  if BinaryFormat.code bits < f.infinity then ofText (BinaryFormat.toText bits)
  else .error .notFinite

end Decimal

end ExactDecimal
