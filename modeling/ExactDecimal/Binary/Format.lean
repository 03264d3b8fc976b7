import ExactDecimal.Decimal.Basic
/-!
The two binary interchange formats. A bit pattern is a sign and a *code*, the remaining bits read
as one number. Codes stand in the order of the numbers that they encode: the finite numbers first,
then infinity, then what is no number. Every finite number is a multiple of the least positive
number of its format, so a format is a set of integers, its *units*. Every finite number has an
exact decimal expansion as well, because a half is five tenths, and it is taken at the least scale
at which it exists.
-/
namespace ExactDecimal

inductive BinaryFormat where
  | single | double
  deriving DecidableEq, Repr

namespace BinaryFormat

def fractionBits : BinaryFormat → Nat
  | single => 23
  | double => 52

def exponentBits : BinaryFormat → Nat
  | single => 8
  | double => 11

/-- The least positive number of the format is two to the power of minus its depth. -/
def depth : BinaryFormat → Nat
  | single => 149
  | double => 1074

theorem depth_le (f : BinaryFormat) : f.depth ≤ 1074 := by cases f <;> decide

/-- The number of codes of each sign. -/
def codeCount (f : BinaryFormat) : Nat := pow2 (f.exponentBits + f.fractionBits)

abbrev Bits (f : BinaryFormat) : Type := BitVec (f.exponentBits + f.fractionBits + 1)

/-- The code of infinity. The codes below it belong to the finite numbers. -/
def infinity (f : BinaryFormat) : Nat := (pow2 f.exponentBits - 1) * pow2 f.fractionBits

def isNegative {f : BinaryFormat} (bits : f.Bits) : Bool := f.codeCount ≤ bits.toNat

def code {f : BinaryFormat} (bits : f.Bits) : Nat := bits.toNat % f.codeCount

def ofCode (f : BinaryFormat) (negative : Bool) (code : Nat) : f.Bits :=
  BitVec.ofNat _ (if negative then f.codeCount + code else code)

/-- The digits that a code stores, with the leading one that is left out when the code is not
among the least ones. -/
def significand (f : BinaryFormat) (code : Nat) : Nat :=
  if code < pow2 f.fractionBits then code else pow2 f.fractionBits + code % pow2 f.fractionBits

/-- How many binary places the significand stands above the least ones of the format. -/
def shift (f : BinaryFormat) (code : Nat) : Nat := code / pow2 f.fractionBits - 1

/-- The number with this code, counted in least positive numbers. -/
def units (f : BinaryFormat) (code : Nat) : Nat := f.significand code * pow2 (f.shift code)

@[simp] theorem units_zero (f : BinaryFormat) : f.units 0 = 0 := by
  simp [units, significand, pow2_pos]

end BinaryFormat

/-! ## The exact decimal -/

/-- Cancels the twos of the fraction `m / 2 ^ k`, and gives its new numerator and exponent. -/
def cancelTwos (m : Nat) : Nat → Nat × Nat
  | 0 => (m, 0)
  | k + 1 => if m % 2 = 0 then cancelTwos (m / 2) k else (m, k + 1)

theorem cancelTwos_le (m k : Nat) : (cancelTwos m k).2 ≤ k := by
  induction k generalizing m with
  | zero => exact Nat.le_refl 0
  | succ k ih =>
    unfold cancelTwos
    split
    · exact Nat.le_succ_of_le (ih _)
    · exact Nat.le_refl _

/-- Cancelling keeps the value of the fraction. -/
theorem cancelTwos_mul (m k : Nat) :
    (cancelTwos m k).1 * pow2 (k - (cancelTwos m k).2) = m := by
  induction k generalizing m with
  | zero => simp [cancelTwos]
  | succ k ih =>
    unfold cancelTwos
    split
    · have h := ih (m / 2)
      have hk := cancelTwos_le (m / 2) k
      rw [show k + 1 - (cancelTwos (m / 2) k).2 = k - (cancelTwos (m / 2) k).2 + 1 by omega,
        pow2_succ, ← Nat.mul_assoc, h]
      omega
    · simp

namespace Decimal

/-- The decimal of a signed fraction `units / 2 ^ depth`, at its least scale. -/
def ofUnits (f : BinaryFormat) (negative : Bool) (units : Nat) : Decimal where
  magnitude :=
    signed negative ((cancelTwos units f.depth).1 * pow5 (cancelTwos units f.depth).2)
  scale := (cancelTwos units f.depth).2
  scale_fits := by
    have := cancelTwos_le units f.depth
    have := f.depth_le
    omega

/-- The exact value of a binary number, if it is finite. -/
def ofBinary {f : BinaryFormat} (bits : f.Bits) : Except ParseError Decimal :=
  if BinaryFormat.code bits < f.infinity then
    .ok (ofUnits f (BinaryFormat.isNegative bits) (f.units (BinaryFormat.code bits)))
  else .error .notFinite

end Decimal

end ExactDecimal
