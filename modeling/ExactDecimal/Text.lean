import ExactDecimal.Decimal.Basic
/-!
The texts of decimals. A number text is a sign, a mantissa with at most one point, and an exponent
behind its marker: `[sign] mantissa [marker [sign] digits]`. Digits are the ten ASCII digits and
nothing else. Every text is either read with the exact value that it spells or refused; no text is
read with a negative scale.
-/
namespace ExactDecimal

namespace Text

/-- Whether the text begins with a minus sign, and what follows the sign if there is one. -/
def splitSign : List Char → Bool × List Char
  | '-' :: rest => (true, rest)
  | '+' :: rest => (false, rest)
  | text => (false, text)

def isMarker (c : Char) : Bool := c = 'e' || c = 'E'

/-- What stands before the first exponent marker, and what follows it if there is one. -/
def splitMarker (text : List Char) : List Char × Option (List Char) :=
  (text.takeWhile (!isMarker ·), (text.dropWhile (!isMarker ·)).tail?)

/-- The digits before and after the point of a mantissa. -/
structure Mantissa where
  whole : List Char
  fraction : List Char
  deriving DecidableEq, Repr

namespace Mantissa

def digits (m : Mantissa) : List Char := m.whole ++ m.fraction

/-- The integer that the digits spell with the point left out. -/
def coefficient (m : Mantissa) : Nat := ofNumeral m.digits

def places (m : Mantissa) : Nat := m.fraction.length

/-- Refuses a mantissa without digits. -/
def check (m : Mantissa) : Except ParseError Mantissa :=
  if m.digits.isEmpty then .error .noDigits else .ok m

def read (text : List Char) : Except ParseError Mantissa :=
  let whole := text.takeWhile Char.isDigit
  match text.dropWhile Char.isDigit with
  | [] => check ⟨whole, []⟩
  | '.' :: rest =>
    match rest.dropWhile Char.isDigit with
    | [] => check ⟨whole, rest⟩
    | '.' :: _ => .error .multiplePoints
    | c :: _ => .error (.unrecognized c)
  | c :: _ => .error (.unrecognized c)

end Mantissa

/-- An exponent: an optional sign and digits, whose value has to be a possible scale. -/
def readExponent (text : List Char) : Except ParseError Int :=
  let digits := (splitSign text).2
  if digits.isEmpty then .error .missingExponent
  else if digits.all Char.isDigit then
    match ofNumeralUpTo? 2147483648 digits with
    | none => .error .malformedExponent
    | some n =>
      let exponent := signed (splitSign text).1 n
      if ScaleFits exponent then .ok exponent else .error .malformedExponent
  else .error .malformedExponent

/-- Coefficient and scale of a number with so many places and a written exponent. The places alone
are kept as written. With an exponent the scale is never negative: zeros to the right of the
digits are written out, and zero itself is left at scale zero. -/
def applyExponent (coefficient places : Nat) : Option Int → Nat × Int
  | none => (coefficient, places)
  | some exponent =>
    if coefficient = 0 then (0, 0)
    else if places < exponent then (coefficient * pow10 (exponent - places).toNat, 0)
    else (coefficient, places - exponent)

end Text

/-! ## Reading -/

namespace Decimal

open Text

def ofChars (text : List Char) : Except ParseError Decimal := do
  let body := splitMarker (splitSign text).2
  let mantissa ← Mantissa.read body.1
  let exponent ← body.2.mapM readExponent
  let parts := applyExponent mantissa.coefficient mantissa.places exponent
  (ofParts? (signed (splitSign text).1 parts.1) parts.2).elim (.error .malformedExponent) .ok

def ofText (text : String) : Except ParseError Decimal := ofChars text.toList

end Decimal

/-!
## Writing

All digits of a decimal are written, with as many places as the scale says and never an exponent. A
negative scale shows as zeros at the end, a number below one has a zero before the point, and only a
number below zero has a sign.
-/

/-- Sets the point before the last `places` digits, after putting in front the zeros that leave at
least one digit to its left. -/
def insertPoint (digits : List Char) (places : Nat) : List Char :=
  if places = 0 then digits
  else
    let padded := List.replicate (places + 1 - digits.length) '0' ++ digits
    padded.take (padded.length - places) ++ '.' :: padded.drop (padded.length - places)

@[simp] theorem insertPoint_zero (digits : List Char) : insertPoint digits 0 = digits := rfl

namespace Decimal

/-- The text without its sign. -/
def digitChars (d : Decimal) : List Char :=
  let digits := numeral d.magnitude.natAbs
  if 0 ≤ d.scale then insertPoint digits d.scale.toNat
  else if d.isZero then digits
  else digits ++ List.replicate (-d.scale).toNat '0'

def toChars (d : Decimal) : List Char :=
  if d.isNegative then '-' :: d.digitChars else d.digitChars

def toText (d : Decimal) : String := String.ofList d.toChars

instance : ToString Decimal := ⟨toText⟩

@[simp] theorem toList_toText (d : Decimal) : d.toText.toList = d.toChars :=
  String.toList_ofList

end Decimal

end ExactDecimal
