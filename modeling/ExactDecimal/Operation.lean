import ExactDecimal.Decimal.Division
import ExactDecimal.Decimal.Order
import ExactDecimal.Text
import ExactDecimal.Binary.Format
import ExactDecimal.Binary.Nearest
/-!
The operations that make a decimal out of one decimal, or out of two, as data. Running one gives
the decimal or the failure of the function it names.
-/
namespace ExactDecimal

/-- Operations on one decimal. -/
inductive Unary where
  | neg
  | abs
  | withScale (scale : Int)
  | withScaleRound (scale : Int) (mode : RoundingMode)
  | round (context : Context)
  | movePointLeft (n : Int)
  | movePointRight (n : Int)
  | reread
  | viaDouble
  | truncate
  deriving DecidableEq, Repr

/-- Operations on two decimals. The two products differ in how they fail. -/
inductive Binary where
  | add
  | sub
  | mul
  | checkedMul
  | divideToScale (scale : Int) (mode : RoundingMode)
  | divide (mode : RoundingMode)
  | max
  | min
  deriving DecidableEq, Repr

def Unary.run (op : Unary) (a : Decimal) : Except Failure Decimal :=
  match op with
  | neg => .ok (-a)
  | abs => .ok a.abs
  | withScale scale => (a.withScale scale).mapError .arithmetic
  | withScaleRound scale mode => (a.withScaleRound scale mode).mapError .arithmetic
  | round context => (a.round context).mapError .arithmetic
  | movePointLeft n => (a.movePointLeft n).mapError .arithmetic
  | movePointRight n => (a.movePointRight n).mapError .arithmetic
  | reread => (Decimal.ofText a.toText).mapError .parse
  | viaDouble => (Decimal.ofBinary (a.toBinary .double)).mapError .parse
  | truncate => .ok (Decimal.ofInt a.truncate)

def Binary.run (op : Binary) (a b : Decimal) : Except Failure Decimal :=
  match op with
  | add => .ok (a + b)
  | sub => .ok (a - b)
  | mul => (a.mul? b).mapError .product
  | checkedMul => (a.mul? b).mapError .arithmetic
  | divideToScale scale mode => (a.divideToScale b scale mode).mapError .arithmetic
  | divide mode => (a.divide b mode).mapError .arithmetic
  | max => .ok (a.max b)
  | min => .ok (a.min b)

/-- Divides one text by another. The mode is looked at first, then the texts, then the numbers. -/
def divideTexts (text divisor : String) (scale code : Int) : Except Failure Decimal := do
  let mode ← RoundingMode.ofCode code
  let a ← (Decimal.ofText text).mapError .parse
  let b ← (Decimal.ofText divisor).mapError .parse
  (Binary.divideToScale scale mode).run a b

end ExactDecimal
