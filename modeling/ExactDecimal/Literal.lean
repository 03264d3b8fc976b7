import ExactDecimal.Text
/-!
Decimal literals in the source text of a program, as they arrive from a tokenizer: an optional
sign and one literal, possibly inside groups that leave no trace in the text. A literal is expanded
to its sign, its magnitude in words of 32 bits, lowest first, and its scale. The words end in no
zero word, so that zero has none, and zero has no sign.
-/
namespace ExactDecimal

/-- A token. A group is a parenthesis, or invisible where it only holds its tokens together. -/
inductive Token where
  | punct (c : Char)
  | literal (text : List Char)
  | ident (name : String)
  | group (visible : Bool) (tokens : List Token)

inductive LiteralError where
  | missing
  | expected
  | unexpected
  | noDigits
  | invalid
  | noExponent
  | malformedExponent
  | exponentOutOfRange
  | scaleOutOfRange
  deriving DecidableEq, Repr

def LiteralError.message : LiteralError → String
  | .missing => "missing decimal literal"
  | .expected => "expected a decimal literal"
  | .unexpected => "unexpected token after decimal literal"
  | .noDigits => "invalid decimal literal: no digits"
  | .invalid => "invalid decimal literal"
  | .noExponent => "invalid decimal literal: no exponent following `e` or `E`"
  | .malformedExponent => "invalid decimal literal: malformed exponent"
  | .exponentOutOfRange => "decimal literal exponent out of range"
  | .scaleOutOfRange => "decimal literal scale out of range"

/-- The words of a number, lowest first. -/
def toWords (n : Nat) : List UInt32 :=
  if n = 0 then [] else UInt32.ofNat (n % 4294967296) :: toWords (n / 4294967296)
termination_by n
decreasing_by exact Nat.div_lt_self (by omega) (by omega)

/-- The number that words spell, lowest first; zero words at the end do not matter. -/
def ofWords : List UInt32 → Nat
  | [] => 0
  | word :: rest => word.toNat + 4294967296 * ofWords rest

@[simp] theorem ofWords_toWords (n : Nat) : ofWords (toWords n) = n := by
  induction n using Nat.strongRecOn with
  | ind n ih =>
    rw [toWords]
    split
    · simp_all [ofWords]
    · simp only [ofWords, ih (n / 4294967296) (by omega), UInt32.toNat_ofNat']
      omega

/-- What a literal is expanded to. -/
structure LiteralParts where
  negative : Bool
  words : List UInt32
  scale : Int
  scale_fits : ScaleFits scale := by omega

namespace LiteralParts

/-- The decimal of the parts; zero has no sign, whatever the parts say. -/
def toDecimal (p : LiteralParts) : Decimal :=
  ⟨signed p.negative (ofWords p.words), p.scale, p.scale_fits⟩

def dropPlus : List Char → List Char
  | '+' :: rest => rest
  | text => text

/-- An exponent may have a plus sign of its own before its sign. -/
def readExponent (text : List Char) : Except LiteralError Int :=
  let text := dropPlus text
  let exponent := Text.splitSign text
  if text.isEmpty then .error .noExponent
  else if exponent.2.isEmpty || !exponent.2.all Char.isDigit then .error .malformedExponent
  else
    let value := signed exponent.1 (ofNumeral exponent.2)
    if ScaleFits value then .ok value else .error .malformedExponent

/-- Magnitude and scale of the digits of a literal with so many of them behind the point. A power
of ten that is left once the point is moved past the last digit is multiplied out; it has to be a
word of 32 bits. -/
def applyPower (magnitude places : Nat) : Option Int → Except LiteralError (Nat × Int)
  | none => .ok (magnitude, places)
  | some exponent =>
    let net := exponent - places
    if magnitude = 0 then .ok (magnitude, 0)
    else if 0 < net then
      if net < 4294967296 then .ok (magnitude * Nat.pow 10 net.toNat, 0)
      else .error .exponentOutOfRange
    else .ok (magnitude, -net)

/-- The literal with this magnitude and scale. -/
def assemble (negative : Bool) (parts : Nat × Int) : Except LiteralError LiteralParts :=
  if h : ScaleFits parts.2 then .ok ⟨negative && parts.1 != 0, toWords parts.1, parts.2, h⟩
  else .error .scaleOutOfRange

/-- The literal without sign and underscores. -/
def readUnsigned (negative : Bool) (text : List Char) : Except LiteralError LiteralParts := do
  let body := Text.splitMarker text
  let whole := body.1.takeWhile (· != '.')
  let fraction := (body.1.dropWhile (· != '.')).tail
  if (whole ++ fraction).isEmpty then .error .noDigits
  else if !(whole ++ fraction).all Char.isDigit then .error .invalid
  else
    let exponent ← body.2.mapM readExponent
    let parts ← applyPower (ofNumeral (whole ++ fraction)) fraction.length exponent
    assemble negative parts

/-- A minus sign that stands inside a literal is a token of its own. -/
def spell : Token → List Token
  | .literal ('-' :: rest) => [.punct '-', .literal rest]
  | token => [token]

/-- The tokens that count: an invisible group in front stands for all of them. -/
def unwrap : List Token → List Token
  | .group false tokens :: _ => unwrap tokens
  | tokens => tokens

/-- The literal behind the sign. -/
def ofUnsignedTokens (negative : Bool) : List Token → Except LiteralError LiteralParts
  | [] => .error .missing
  | [.literal text] => readUnsigned negative (text.filter (· != '_'))
  | .literal _ :: _ => .error .unexpected
  | _ => .error .expected

def ofTokens (tokens : List Token) : Except LiteralError LiteralParts :=
  match (unwrap tokens).flatMap spell with
  | .punct '-' :: rest => ofUnsignedTokens true rest
  | .punct '+' :: rest => ofUnsignedTokens false rest
  | rest => ofUnsignedTokens false rest

end LiteralParts

end ExactDecimal
