import ExactDecimal.Decimal.Basic
/-!
The numeric order, which looks at values and not at scales: `1.0` and `1.00` are level in it.
Integer parts are compared first, so that only decimals with the same integer part have their
fractions brought to one scale. The integer part is also what is converted to machine words of a
given width; what does not fit into the word has no conversion, and nothing wraps.
-/
namespace ExactDecimal

namespace Decimal

/-- Integer part, and what is left of the magnitude beside it. Both are cut off toward zero, so
that they never have opposite signs. -/
def split (d : Decimal) : Int × Int :=
  if d.scale < 0 then (d.magnitude * pow10 (-d.scale).toNat, 0)
  else
    let unit : Int := pow10 d.scale.toNat
    (d.magnitude.tdiv unit, d.magnitude.tmod unit)

/-- The digits after the point; a negative scale has none. -/
def places (d : Decimal) : Nat := d.scale.toNat

/-- The order read off integer parts and, between equal ones, off fractions brought to one length. -/
def compareSplit (a b : Decimal) : Ordering :=
  let (wholeA, restA) := a.split
  let (wholeB, restB) := b.split
  (compare wholeA wholeB).then
    (compare (restA * pow10 (b.places - a.places)) (restB * pow10 (a.places - b.places)))

def numericCompare (a b : Decimal) : Ordering :=
  if a.scale = b.scale then compare a.magnitude b.magnitude else a.compareSplit b

/-- The larger of two decimals, and the second if they are level. -/
def max (a b : Decimal) : Decimal := if a.numericCompare b = .gt then a else b

/-- The smaller of two decimals, and the second if they are level. -/
def min (a b : Decimal) : Decimal := if a.numericCompare b = .lt then a else b

/-- In ascending order; decimals that are level keep their places. -/
def sort (ds : List Decimal) : List Decimal := ds.mergeSort fun a b => (a.numericCompare b).isLE

/-- How many different decimals a list holds, by equality of both parts. -/
def distinctCount (ds : List Decimal) : Nat := ds.eraseDups.length

theorem numericCompare_of_scale_eq {a b : Decimal} (h : a.scale = b.scale) :
    a.numericCompare b = compare a.magnitude b.magnitude := if_pos h

end Decimal

/-! ## Machine words -/

/-- The integers of a machine word. -/
structure WordType where
  isSigned : Bool
  bits : Nat
  deriving DecidableEq, Repr

namespace WordType

def unsigned (bits : Nat) : WordType := ⟨false, bits⟩
def twosComplement (bits : Nat) : WordType := ⟨true, bits⟩

def least (w : WordType) : Int := if w.isSigned then -(pow2 (w.bits - 1)) else 0

/-- The first integer past the largest one of the word. -/
def limit (w : WordType) : Int := pow2 (if w.isSigned then w.bits - 1 else w.bits)

/-- The integers that the word holds. -/
abbrev Holds (w : WordType) (n : Int) : Prop := w.least ≤ n ∧ n < w.limit

end WordType

namespace Decimal

/-- The integer part, cut off toward zero. -/
def truncate (d : Decimal) : Int := d.split.1

def toWord? (d : Decimal) (w : WordType) : Option Int :=
  if w.Holds d.truncate then some d.truncate else none

@[simp] theorem truncate_ofInt (n : Int) : (ofInt n).truncate = n := by
  simp [truncate, split, ofInt]

theorem toWord?_eq_some_iff {d : Decimal} {w : WordType} {n : Int} :
    d.toWord? w = some n ↔ d.truncate = n ∧ w.Holds n := by
  unfold toWord?
  split
  · rename_i h
    exact ⟨fun e => ⟨Option.some.inj e, Option.some.inj e ▸ h⟩, fun e => congrArg some e.1⟩
  · rename_i h
    exact ⟨fun e => (nomatch e), fun e => absurd (e.1 ▸ e.2) h⟩

end Decimal

end ExactDecimal
