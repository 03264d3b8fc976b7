import ExactDecimal.Text
/-!
Decimals in a packed binary form: the length of the text in bytes as a varint, then the text in
UTF-8. A varint holds seven bits in each byte, lowest first, and every byte but the last has its
high bit set. A reader of words of 64 bits takes at most ten bytes for it, and only one bit of the
tenth; it does not mind zeros at the end. Bytes behind the text are left alone.
-/
namespace ExactDecimal

inductive PackedError where
  | unexpectedEnd
  | badVarint
  | badUtf8
  | badText (cause : ParseError)
  deriving DecidableEq, Repr

namespace Varint

def encode (n : Nat) : List UInt8 :=
  if n < 128 then [UInt8.ofNat n] else UInt8.ofNat (n % 128 + 128) :: encode (n / 128)
termination_by n
decreasing_by omega

/-- The number in front and the bytes behind it, where so many bytes are left for the number. -/
def decodeWithin : Nat → List UInt8 → Except PackedError (Nat × List UInt8)
  | 0, _ => .error .badVarint
  | _ + 1, [] => .error .unexpectedEnd
  | left + 1, byte :: rest =>
    if byte.toNat < 128 then
      if left = 0 ∧ 1 < byte.toNat then .error .badVarint else .ok (byte.toNat, rest)
    else
      (decodeWithin left rest).map fun (high, rest) => (byte.toNat - 128 + 128 * high, rest)

def decode (bytes : List UInt8) : Except PackedError (Nat × List UInt8) := decodeWithin 10 bytes

end Varint

namespace Packed

def encodeText (text : String) : List UInt8 :=
  Varint.encode text.toUTF8.size ++ text.toUTF8.data.toList

def decodeText (bytes : List UInt8) : Except PackedError String := do
  let (length, rest) ← Varint.decode bytes
  if rest.length < length then .error .unexpectedEnd
  else
    match String.fromUTF8? ⟨(rest.take length).toArray⟩ with
    | some text => .ok text
    | none => .error .badUtf8

end Packed

namespace Decimal

def toPacked (d : Decimal) : List UInt8 := Packed.encodeText d.toText

def ofPacked (bytes : List UInt8) : Except PackedError Decimal := do
  let text ← Packed.decodeText bytes
  (ofText text).mapError .badText

end Decimal

end ExactDecimal
