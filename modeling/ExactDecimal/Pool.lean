import ExactDecimal.Binary.Shortest
import ExactDecimal.Literal
import ExactDecimal.Operation
/-!
The decimals that a program holds, each with the digit count that it may remember, and the
constants, which are built when they are first called for and copied from then on. A copy takes the
count along, and every operation that builds a new decimal starts without one, so that a count which
is there is the right one. A program makes decimals, in a new place or in that of one that it no
longer needs, and it looks at them. To ask a decimal for its digit count is to look at it as well,
but it leaves the count behind.
-/
namespace ExactDecimal

structure Counted where
  value : Decimal
  /-- The digit count, and zero until it has been asked for. -/
  count : Nat
  deriving DecidableEq, Repr

namespace Counted

/-- Whether the count that is remembered, if any, is that of the value. -/
def Valid (c : Counted) : Prop := c.count = 0 ∨ c.count = c.value.precision

/-- A decimal that nobody has asked yet. -/
def fresh (d : Decimal) : Counted := ⟨d, 0⟩

@[simp] theorem value_fresh (d : Decimal) : (fresh d).value = d := rfl

@[simp] theorem valid_fresh (d : Decimal) : (fresh d).Valid := .inl rfl

/-- The digit count, looked up or counted. -/
def precision (c : Counted) : Nat := if c.count = 0 then c.value.precision else c.count

/-- The decimal after it has been asked for its digit count. -/
def asked (c : Counted) : Counted := ⟨c.value, c.precision⟩

@[simp] theorem value_asked (c : Counted) : c.asked.value = c.value := rfl

theorem precision_eq {c : Counted} (h : c.Valid) : c.precision = c.value.precision := by
  unfold precision
  split
  · rfl
  · rename_i hc
    exact h.resolve_left hc

theorem valid_asked {c : Counted} (h : c.Valid) : c.asked.Valid := .inr (precision_eq h)

/-- The constants have been counted beforehand. -/
def zero : Counted := (fresh Decimal.zero).asked
def one : Counted := (fresh Decimal.one).asked
def ten : Counted := (fresh Decimal.ten).asked

def abs (c : Counted) : Counted := if c.value.isNegative then fresh (-c.value) else c

/-- Rounding asks for the digit count first, and trusts the answer. A decimal that is short enough
already keeps its count, and a rounded one has been counted. -/
def round (c : Counted) (context : Context) : Except ArithmeticError Counted :=
  if context.precision = 0 ∨ c.precision ≤ context.precision then .ok c.asked
  else (c.value.roundCounted c.precision context).map fun d => (fresh d).asked

def unary (op : Unary) (c : Counted) : Except Failure Counted :=
  match op with
  | .abs => .ok c.abs
  | .round context => (c.round context).mapError .arithmetic
  | op => (op.run c.value).map fresh

def binary (op : Binary) (a b : Counted) : Except Failure Counted :=
  match op with
  | .max => .ok (if a.value.numericCompare b.value = .gt then a else b)
  | .min => .ok (if a.value.numericCompare b.value = .lt then a else b)
  | op => (op.run a.value b.value).map fresh

/-- Adds or multiplies a list up, from `start`. -/
def fold (op : Binary) (start : Counted) (cs : List Counted) : Except Failure Counted :=
  cs.foldlM (binary op) start

end Counted

/-! ## Pools -/

/-- Decimals that are built once. -/
inductive Constant where
  | zero
  | one
  | ten
  deriving DecidableEq, Repr

def Constant.value : Constant → Decimal
  | zero => .zero
  | one => .one
  | ten => .ten

def Constant.built : Constant → Counted
  | zero => .zero
  | one => .one
  | ten => .ten

theorem Constant.built_eq (c : Constant) : c.built = (Counted.fresh c.value).asked := by
  cases c <;> rfl

/-- What a decimal is made of that is not made of other decimals. -/
inductive Origin where
  | decimal (d : Decimal)
  | literal (p : LiteralParts)
  | integer (n : Int)
  | text (s : String)
  | binary (f : BinaryFormat) (bits : f.Bits)
  | shortest (f : BinaryFormat) (bits : f.Bits)

def Origin.run : Origin → Except Failure Decimal
  | decimal d => .ok d
  | literal p => .ok p.toDecimal
  | integer n => .ok (.ofInt n)
  | text s => (Decimal.ofText s).mapError .parse
  | binary _ bits => (Decimal.ofBinary bits).mapError .parse
  | shortest _ bits => (Decimal.ofBinaryShortest bits).mapError .parse

/-- What makes a decimal; the numbers are the places of its operands. -/
inductive Maker where
  | origin (o : Origin)
  | constant (c : Constant)
  | clone (k : Nat)
  | unary (op : Unary) (k : Nat)
  | binary (op : Binary) (j k : Nat)
  | sum (ks : List Nat)
  | product (ks : List Nat)

/-- What only looks at values. -/
inductive Look where
  | compare (j k : Nat)
  | write (k : Nat)
  | toWord (w : WordType) (k : Nat)
  | toBinary (f : BinaryFormat) (k : Nat)

inductive Action where
  | make (m : Maker)
  | assign (m : Maker) (k : Nat)
  | look (l : Look)
  | ask (k : Nat)

def Action.isAsk : Action → Bool
  | ask _ => true
  | _ => false

/-- What a program gets to know from an action; `absent` is for a place that is not there. -/
inductive Answer where
  | made (d : Decimal)
  | failed (failure : Failure)
  | digits (n : Nat)
  | order (numeric : Ordering) (equal : Bool)
  | text (s : String)
  | word (n : Option Int)
  | bits (n : Nat)
  | absent
  deriving DecidableEq, Repr

def Look.run? (ds : List Decimal) : Look → Option Answer
  | compare j k => do
    let a ← ds[j]?
    let b ← ds[k]?
    some (.order (a.numericCompare b) (a = b))
  | write k => ds[k]?.map fun d => .text d.toText
  | toWord w k => ds[k]?.map fun d => .word (d.toWord? w)
  | toBinary f k => ds[k]?.map fun d => .bits (d.toBinary f).toNat

structure Pool where
  cells : List Counted
  /-- The constants that have been called for. -/
  shared : Constant → Option Counted

namespace Pool

def empty : Pool := ⟨[], fun _ => none⟩

def values (w : Pool) : List Decimal := w.cells.map Counted.value

def constant (w : Pool) (c : Constant) : Counted := (w.shared c).getD c.built

/-- The pool once a constant has been called for. -/
def share (w : Pool) (c : Constant) : Pool :=
  { w with shared := fun other => if other = c then some (w.constant c) else w.shared other }

def put (w : Pool) (c : Counted) : Pool := { w with cells := w.cells ++ [c] }

def replace (w : Pool) (k : Nat) (c : Counted) : Pool := { w with cells := w.cells.set k c }

/-- Rounding asks its operand for the digit count, and a change of scale divides by the constant
one. No other operation on one decimal touches more than its result. -/
def unary (w : Pool) (op : Unary) (k : Nat) (c : Counted) : Pool × Except Failure Counted :=
  match op with
  | .round _ => (w.replace k c.asked, c.unary op)
  | .withScale scale =>
    (w.share .one, c.binary (.divideToScale scale .unnecessary) (w.constant .one))
  | .withScaleRound scale mode =>
    (w.share .one, c.binary (.divideToScale scale mode) (w.constant .one))
  | op => (w, c.unary op)

/-- What is made, and the pool with the counts that were needed for it. -/
def make? (w : Pool) : Maker → Option (Pool × Except Failure Counted)
  | .origin o => some (w, o.run.map .fresh)
  | .constant c => some (w.share c, .ok (w.constant c))
  | .clone k => w.cells[k]?.map fun c => (w, .ok c)
  | .unary op k => w.cells[k]?.map (w.unary op k)
  | .binary op j k => do
    let a ← w.cells[j]?
    let b ← w.cells[k]?
    some (w, a.binary op b)
  | .sum ks => (ks.mapM fun k => w.cells[k]?).map fun cs =>
    (w.share .zero, (w.constant .zero).fold .add cs)
  | .product ks => (ks.mapM fun k => w.cells[k]?).map fun cs =>
    (w.share .one, (w.constant .one).fold .mul cs)

/-- Puts what has been made in its place; a failure leaves every value as it is. -/
def settle (place : Pool → Counted → Pool) : Pool × Except Failure Counted → Pool × Answer
  | (w, .ok c) => (place w c, .made c.value)
  | (w, .error failure) => (w, .failed failure)

def step? (w : Pool) : Action → Option (Pool × Answer)
  | .make m => (w.make? m).map (settle put)
  | .assign m k => do
    let _ ← w.cells[k]?
    (w.make? m).map (settle fun w c => w.replace k c)
  | .look l => (l.run? w.values).map fun answer => (w, answer)
  | .ask k => w.cells[k]?.map fun c => (w.replace k c.asked, .digits c.precision)

def step (w : Pool) (a : Action) : Pool × Answer := (w.step? a).getD (w, .absent)

end Pool

/-- What a program leaves, and each of its actions with the answer to it. -/
def play {State : Type} (step : State → Action → State × Answer) (s : State) :
    List Action → State × List (Action × Answer)
  | [] => (s, [])
  | a :: rest =>
    let next := step s a
    let played := play step next.1 rest
    (played.1, (a, next.2) :: played.2)

def Pool.run (program : List Action) : Pool × List (Action × Answer) := play step empty program

end ExactDecimal
