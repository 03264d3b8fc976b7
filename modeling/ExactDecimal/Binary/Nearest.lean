import ExactDecimal.Binary.Format
import ExactDecimal.Text
/-!
The binary number nearest to a decimal, where a tie goes to the even significand. A decimal is
converted by way of its text: the standard reader of binary numbers takes a number text apart in its
own way, and rounds the exact value that is spelled once for each format. Numbers beyond the largest
finite one become infinite, and numbers too small become a zero that keeps the sign.
-/
namespace ExactDecimal

/-- The integer nearest to `n / d`, and the even one of two that are equally near. -/
def divNearestEven (n d : Nat) : Nat :=
  let quotient := n / d
  let rest := 2 * (n % d)
  if rest < d ∨ rest = d ∧ quotient % 2 = 0 then quotient else quotient + 1

namespace BinaryFormat

/-- The code nearest to `n / d` units. The leading places of the quotient fix the spacing of the
format there; rounding at that spacing may carry into the next one, which the code absorbs. -/
def nearestUnits (f : BinaryFormat) (n d : Nat) : Nat :=
  let shift := Nat.log2 (n / d) - f.fractionBits
  min f.infinity (shift * pow2 f.fractionBits + divNearestEven n (d * pow2 shift))

/-- The code nearest to `n · 10 ^ exponent`. A number with more than 309 digits before its point
is infinite in either format, and one with more than 323 zeros behind it is zero, so that no huge
power is built for them. -/
def nearest (f : BinaryFormat) (n : Nat) (exponent : Int) : Nat :=
  let digits := digitCount n + exponent
  if n = 0 ∨ digits < -323 then 0
  else if 309 < digits then f.infinity
  else f.nearestUnits (n * pow10 exponent.toNat * pow2 f.depth) (pow10 (-exponent).toNat)

/-! ## Reading texts -/

/-- What stands behind the digits before the point: nothing, or the point and any digits. -/
def readFraction? : List Char → Option (List Char)
  | [] => some []
  | c :: digits => if c = '.' && digits.all Char.isDigit then some digits else none

/-- An optional sign and at least one digit; an exponent may have any size. -/
def readExponent? (text : List Char) : Option Int :=
  let exponent := Text.splitSign text
  if !exponent.2.isEmpty && exponent.2.all Char.isDigit then
    some (signed exponent.1 (ofNumeral exponent.2))
  else none

/-- The number that a text without a sign spells, as an integer times a power of ten. A point needs
digits on one side of it only. -/
def readNumber? (text : List Char) : Option (Nat × Int) := do
  let body := Text.splitMarker text
  let whole := body.1.takeWhile Char.isDigit
  let fraction ← readFraction? (body.1.dropWhile Char.isDigit)
  let exponent ← body.2.mapM readExponent?
  if (whole ++ fraction).isEmpty then none
  else some (ofNumeral (whole ++ fraction), exponent.getD 0 - fraction.length)

/-- Infinity and what is no number have names, in letters of either case. -/
def readName? (f : BinaryFormat) (text : List Char) : Option Nat :=
  let name := text.map Char.toLower
  if name = "inf".toList ∨ name = "infinity".toList then some f.infinity
  else if name = "nan".toList then some (f.infinity + pow2 (f.fractionBits - 1))
  else none

/-- The bits that a text is read as, if it is one of a number. -/
def ofText? (f : BinaryFormat) (text : String) : Option f.Bits :=
  let body := Text.splitSign text.toList
  let code := ((readNumber? body.2).map fun n => f.nearest n.1 n.2) <|> f.readName? body.2
  code.map (f.ofCode body.1)

end BinaryFormat

namespace Decimal

/-- The bits that the text of a decimal is read as. -/
def toBinary? (f : BinaryFormat) (d : Decimal) : Option f.Bits := f.ofText? d.toText

/-- The bits of the binary number nearest to a decimal; the text of a decimal can always be read.
Zero has no sign. -/
def toBinary (f : BinaryFormat) (d : Decimal) : f.Bits := (d.toBinary? f).getD 0

end Decimal

end ExactDecimal
