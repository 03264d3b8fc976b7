import ExactDecimal.Numeral
import ExactDecimal.Error
/-!
Decimals and their exact arithmetic. A decimal is an unbounded integer together with a scale, the
number of places after the point, and stands for `magnitude / 10 ^ scale`; a negative scale stands
for zeros that are not written. Equality is equality of both parts, so `1.0` and `1.00` differ.
Sums and differences always exist; a product needs a scale that may fall out of range, and so does a
move of the decimal point.
-/
namespace ExactDecimal

/-- The scales that a decimal can have. -/
abbrev ScaleFits (scale : Int) : Prop := -2147483648 ≤ scale ∧ scale ≤ 2147483647

structure Decimal where
  magnitude : Int
  scale : Int
  scale_fits : ScaleFits scale := by omega
  deriving DecidableEq, Repr

/-- The integer of size `n` with the given sign. -/
def signed (negative : Bool) (n : Nat) : Int := if negative then -n else n

@[simp] theorem natAbs_signed (negative : Bool) (n : Nat) : (signed negative n).natAbs = n := by
  cases negative <;> simp [signed]

namespace Decimal

@[ext] theorem ext {a b : Decimal} (hm : a.magnitude = b.magnitude) (hs : a.scale = b.scale) :
    a = b := by
  cases a
  cases b
  cases hm
  cases hs
  rfl

/-- The decimal with these parts, if its scale fits. -/
def ofParts? (magnitude scale : Int) : Option Decimal :=
  if h : ScaleFits scale then some ⟨magnitude, scale, h⟩ else none

/-- The decimal with these parts, as the result of an operation. -/
def ofParts (magnitude scale : Int) : Except ArithmeticError Decimal :=
  (ofParts? magnitude scale).elim (.error .scaleOverflow) .ok

@[simp] theorem ofParts?_self (d : Decimal) : ofParts? d.magnitude d.scale = some d :=
  dif_pos d.scale_fits

@[simp] theorem ofParts_self (d : Decimal) : ofParts d.magnitude d.scale = .ok d := by
  simp [ofParts]

theorem ofParts_of_fits {scale : Int} (h : ScaleFits scale) (magnitude : Int) :
    ofParts magnitude scale = .ok ⟨magnitude, scale, h⟩ := ofParts_self ⟨magnitude, scale, h⟩

theorem ofParts_of_not_fits {scale : Int} (h : ¬ ScaleFits scale) (magnitude : Int) :
    ofParts magnitude scale = .error .scaleOverflow := by
  rw [ofParts, ofParts?, dif_neg h]
  rfl

theorem ofParts_eq_ok_iff {magnitude scale : Int} {d : Decimal} :
    ofParts magnitude scale = .ok d ↔ d.magnitude = magnitude ∧ d.scale = scale := by
  constructor
  · intro h
    by_cases hs : ScaleFits scale
    · rw [ofParts_of_fits hs] at h
      cases h
      exact ⟨rfl, rfl⟩
    · rw [ofParts_of_not_fits hs] at h
      exact nomatch h
  · rintro ⟨rfl, rfl⟩
    exact ofParts_self d

theorem ofParts_eq_error_iff {magnitude scale : Int} {e : ArithmeticError} :
    ofParts magnitude scale = .error e ↔ e = .scaleOverflow ∧ ¬ ScaleFits scale := by
  by_cases hs : ScaleFits scale
  · simp [ofParts_of_fits hs, hs]
  · simp [ofParts_of_not_fits hs, hs, eq_comm]

/-- An integer, at scale zero. -/
def ofInt (n : Int) : Decimal := ⟨n, 0, by omega⟩

def zero : Decimal := ofInt 0
def one : Decimal := ofInt 1
def ten : Decimal := ofInt 10

instance : Inhabited Decimal := ⟨zero⟩

def isZero (d : Decimal) : Bool := d.magnitude = 0

theorem isZero_iff {d : Decimal} : d.isZero = true ↔ d.magnitude = 0 := decide_eq_true_iff

def isNegative (d : Decimal) : Bool := d.magnitude < 0

/-- The power of ten that a change of scale calls for. Exponents of more than 32 bits are refused,
since they only arise from scales too far apart to be brought together. -/
def powerOfTen (k : Nat) : Except ArithmeticError Nat :=
  if k < 4294967296 then .ok (pow10 k) else .error .scaleOverflow

theorem powerOfTen_of_lt {k : Nat} (h : k < 4294967296) : powerOfTen k = .ok (pow10 k) := if_pos h

theorem powerOfTen_of_le {k : Nat} (h : 4294967296 ≤ k) : powerOfTen k = .error .scaleOverflow :=
  if_neg (by omega)

/-- The magnitude with which `d` is written at a scale that is not below its own. -/
def magnitudeAt (d : Decimal) (scale : Int) : Int :=
  d.magnitude * pow10 (scale - d.scale).toNat

@[simp] theorem magnitudeAt_self (d : Decimal) : d.magnitudeAt d.scale = d.magnitude := by
  simp [magnitudeAt]

def neg (d : Decimal) : Decimal := ⟨-d.magnitude, d.scale, d.scale_fits⟩

def abs (d : Decimal) : Decimal := ⟨d.magnitude.natAbs, d.scale, d.scale_fits⟩

/-- The exact sum, at the larger of the two scales. -/
def add (a b : Decimal) : Decimal where
  magnitude := a.magnitudeAt (max a.scale b.scale) + b.magnitudeAt (max a.scale b.scale)
  scale := max a.scale b.scale
  scale_fits := by
    have := a.scale_fits
    have := b.scale_fits
    omega

instance : Neg Decimal := ⟨neg⟩
instance : Add Decimal := ⟨add⟩

/-- The exact difference, at the larger of the two scales. -/
def sub (a b : Decimal) : Decimal := a + -b

instance : Sub Decimal := ⟨sub⟩

@[simp] theorem magnitude_neg (d : Decimal) : (-d).magnitude = -d.magnitude := rfl
@[simp] theorem scale_neg (d : Decimal) : (-d).scale = d.scale := rfl
@[simp] theorem scale_add (a b : Decimal) : (a + b).scale = max a.scale b.scale := rfl
@[simp] theorem scale_sub (a b : Decimal) : (a - b).scale = max a.scale b.scale := rfl

/-- The exact product, at the sum of the two scales. -/
def mul? (a b : Decimal) : Except ArithmeticError Decimal :=
  ofParts (a.magnitude * b.magnitude) (a.scale + b.scale)

/-- The total of a list, added up from zero. An item is a decimal, or a reference to one that `read`
follows. -/
def sumOver {ι : Type} (read : ι → Decimal) (items : List ι) : Decimal :=
  items.foldl (fun total item => total + read item) zero

/-- The product of a list, multiplied up from one; the first overflow ends it. -/
def productOver {ι : Type} (read : ι → Decimal) (items : List ι) : Except ArithmeticError Decimal :=
  items.foldlM (fun total item => total.mul? (read item)) one

def sum (ds : List Decimal) : Decimal := sumOver id ds

def product (ds : List Decimal) : Except ArithmeticError Decimal := productOver id ds

@[simp] theorem sum_nil : sum [] = zero := rfl
@[simp] theorem product_nil : product [] = .ok one := rfl

/-!
## Moves of the decimal point

A move changes the scale and keeps the magnitude, except that a move to the right past the last
digit writes the zeros out and ends at scale zero.
-/

/-- Moves the point by `right` places to the right, or to the left if that is negative. -/
def shiftPoint (d : Decimal) (right : Int) : Except ArithmeticError Decimal :=
  let scale := d.scale - right
  if right ≤ 0 ∨ 0 ≤ scale then ofParts d.magnitude scale
  else (powerOfTen (-scale).toNat).map fun unit => ofInt (d.magnitude * unit)

def movePointLeft (d : Decimal) (n : Int) : Except ArithmeticError Decimal := d.shiftPoint (-n)

def movePointRight (d : Decimal) (n : Int) : Except ArithmeticError Decimal := d.shiftPoint n

theorem shiftPoint_of_le {d : Decimal} {right : Int} (h : right ≤ 0 ∨ right ≤ d.scale) :
    d.shiftPoint right = ofParts d.magnitude (d.scale - right) := if_pos (by omega)

/-- Past the last digit. -/
theorem shiftPoint_of_lt {d : Decimal} {right : Int} (hr : 0 < right) (hs : d.scale < right) :
    d.shiftPoint right = (powerOfTen (-(d.scale - right)).toNat).map
      fun unit => ofInt (d.magnitude * unit) := if_neg (by omega)

theorem shiftPoint_of_lt_of_fits {d : Decimal} {right : Int} (hr : 0 < right)
    (hs : d.scale < right) (h : right - d.scale < 4294967296) :
    d.shiftPoint right = .ok (ofInt (d.magnitude * pow10 (right - d.scale).toNat)) := by
  rw [shiftPoint_of_lt hr hs, Int.neg_sub, powerOfTen_of_lt (by omega)]
  rfl

theorem shiftPoint_of_lt_of_not_fits {d : Decimal} {right : Int} (hr : 0 < right)
    (hs : d.scale < right) (h : 4294967296 ≤ right - d.scale) :
    d.shiftPoint right = .error .scaleOverflow := by
  rw [shiftPoint_of_lt hr hs, Int.neg_sub, powerOfTen_of_le (by omega)]
  rfl

/-- All that a move can come to, if it comes to anything. -/
theorem shiftPoint_cases {d e : Decimal} {right : Int} (h : d.shiftPoint right = .ok e) :
    (right ≤ 0 ∨ right ≤ d.scale) ∧ e.magnitude = d.magnitude ∧ e.scale = d.scale - right ∨
      0 < right ∧ d.scale < right ∧
        e = ofInt (d.magnitude * pow10 (right - d.scale).toNat) := by
  by_cases hr : right ≤ 0 ∨ right ≤ d.scale
  · rw [shiftPoint_of_le hr, ofParts_eq_ok_iff] at h
    exact .inl ⟨hr, h⟩
  · obtain ⟨h0, hs⟩ : 0 < right ∧ d.scale < right := by omega
    by_cases hk : right - d.scale < 4294967296
    · rw [shiftPoint_of_lt_of_fits h0 hs hk] at h
      exact .inr ⟨h0, hs, (Except.ok.inj h).symm⟩
    · rw [shiftPoint_of_lt_of_not_fits h0 hs (by omega)] at h
      exact nomatch h

end Decimal

end ExactDecimal
