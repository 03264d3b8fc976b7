import ExactDecimal.Text
import ExactDecimal.Binary.Nearest
import ExactDecimal.Binary.Shortest
/-!
Decimals in JSON. They are written as strings, which keeps every digit and the scale. They are read
from strings and from numbers; a number that is no word of 64 bits is read as the nearest double,
as every reader of JSON does, and stands for the shortest decimal of that double.
-/
namespace ExactDecimal

/-- A JSON number: a plain integer, or a coefficient times a power of ten. -/
inductive JsonNumber where
  | integer (negative : Bool) (n : Nat)
  | scientific (negative : Bool) (coefficient : Nat) (exponent : Int)
  deriving DecidableEq, Repr

/-- A JSON value, as far as a decimal can be read from it. -/
inductive JsonValue where
  | null
  | boolean (b : Bool)
  | number (n : JsonNumber)
  | string (text : String)
  | sequence
  | map
  deriving DecidableEq, Repr

namespace JsonNumber

/-- One digit or more, and nothing else. -/
def isDigits (text : List Char) : Bool := !text.isEmpty && text.all Char.isDigit

/-- The digits behind the point, which needs some if it is there. -/
def readFraction? : List Char → Option (List Char)
  | [] => some []
  | c :: digits => if c = '.' && isDigits digits then some digits else none

/-- The number that a JSON number token spells. -/
def read? (token : List Char) : Option JsonNumber := do
  let negative := token.head? == some '-'
  let body := Text.splitMarker (if negative then token.tail else token)
  let whole := body.1.takeWhile Char.isDigit
  guard (isDigits whole && (whole.head? != some '0' || whole.length == 1))
  let fraction ← readFraction? (body.1.dropWhile Char.isDigit)
  let exponent ← body.2.mapM BinaryFormat.readExponent?
  match fraction, exponent with
  | [], none => some (.integer negative (ofNumeral whole))
  | _, _ =>
    some (.scientific negative (ofNumeral (whole ++ fraction))
      (exponent.getD 0 - fraction.length))

/-- The bits of the nearest double; too large a number is infinite. -/
def toDouble : JsonNumber → BinaryFormat.double.Bits
  | integer negative n => BinaryFormat.double.ofCode negative (BinaryFormat.double.nearest n 0)
  | scientific negative coefficient exponent =>
    BinaryFormat.double.ofCode negative (BinaryFormat.double.nearest coefficient exponent)

/-- Whether a plain integer fits a word of 64 bits, which has its own sign only below zero. -/
def FitsWord (negative : Bool) (n : Nat) : Prop :=
  n ≤ if negative then 9223372036854775808 else 18446744073709551615

instance (negative : Bool) (n : Nat) : Decidable (FitsWord negative n) :=
  inferInstanceAs (Decidable (_ ≤ _))

end JsonNumber

inductive JsonError where
  | unexpected (value : JsonValue)
  | parse (cause : ParseError)
  deriving DecidableEq, Repr

/-- What a JSON value is called. -/
def JsonValue.kind : JsonValue → String
  | .null => "null"
  | .boolean b => "boolean `" ++ toString b ++ "`"
  | .number _ => "number"
  | .string _ => "string"
  | .sequence => "sequence"
  | .map => "map"

def JsonError.message : JsonError → String
  | .unexpected value =>
    "invalid type: " ++ value.kind ++ ", expected a decimal number or decimal string"
  | .parse cause => cause.message

namespace Decimal

def toJson (d : Decimal) : JsonValue := .string d.toText

def ofJsonNumber (number : JsonNumber) : Except ParseError Decimal :=
  match number with
  | .integer negative n =>
    if JsonNumber.FitsWord negative n then .ok (ofInt (signed negative n))
    else ofBinaryShortest number.toDouble
  | .scientific .. => ofBinaryShortest number.toDouble

def ofJson : JsonValue → Except JsonError Decimal
  | .string text => (ofText text).mapError .parse
  | .number number => (ofJsonNumber number).mapError .parse
  | value => .error (.unexpected value)

@[simp] theorem ofJson_string (text : String) :
    ofJson (.string text) = (ofText text).mapError .parse := rfl

end Decimal

end ExactDecimal
