import ExactDecimal.Pool
/-!
A calculation in steps on a pool of decimals: one of them is the current one, which operations
replace, and a growing list of registers keeps earlier ones. A step that fails leaves the current
decimal as it is, and the calculation goes on.
-/
namespace ExactDecimal

/-- A decimal that is brought in, or one from a register. -/
inductive Operand where
  | decimal (d : Decimal)
  | register (k : Nat)
  deriving DecidableEq, Repr

inductive Step where
  | unary (op : Unary)
  | binary (op : Binary) (b : Operand)
  | push
  | load (b : Operand)
  | precision
  | compare (b : Operand)
  | write
  deriving DecidableEq, Repr

/-- What a step reports. -/
inductive Report where
  | current (d : Decimal) (precision : Nat)
  | precision (n : Nat)
  | order (numeric : Ordering) (equal : Bool)
  | text (s : String)
  deriving DecidableEq, Repr

structure Session where
  pool : Pool
  /-- The places of the current decimal and of those in the registers. -/
  current : Nat
  registers : List Nat

namespace Session

def start (d : Decimal) : Session := ⟨Pool.empty.put (.fresh d), 0, []⟩

/-- The place of an operand, where a decimal that is brought in gets one. -/
def fetch (s : Session) : Operand → Option (Session × Nat)
  | .decimal d => some ({ s with pool := s.pool.put (.fresh d) }, s.pool.cells.length)
  | .register k => s.registers[k]?.map fun place => (s, place)

/-- Takes what has been made over, asks it for its digit count and reports it, or the failure. -/
def follow (s : Session) : Pool × Except Failure Counted → Session × Except Failure Report
  | (pool, .ok c) =>
    ({ s with pool := pool.put c.asked, current := pool.cells.length },
      .ok (.current c.value c.precision))
  | (pool, .error failure) => ({ s with pool }, .error failure)

/-- One step, or nothing if it names a register that is not there. -/
def step (s : Session) : Step → Option (Session × Except Failure Report)
  | .unary op => (s.pool.make? (.unary op s.current)).map s.follow
  | .binary op b => do
    let (s, k) ← s.fetch b
    (s.pool.make? (.binary op s.current k)).map s.follow
  | .push =>
    let pushed := { s with registers := s.registers ++ [s.current] }
    (s.pool.make? (.clone s.current)).map pushed.follow
  | .load b => do
    let (s, k) ← s.fetch b
    (s.pool.make? (.clone k)).map s.follow
  | .precision => s.pool.cells[s.current]?.map fun c =>
    ({ s with pool := s.pool.replace s.current c.asked }, .ok (.precision c.precision))
  | .compare b => do
    let (s, k) ← s.fetch b
    let a ← s.pool.cells[s.current]?
    let c ← s.pool.cells[k]?
    some (s, .ok (.order (a.value.numericCompare c.value) (a.value = c.value)))
  | .write => s.pool.cells[s.current]?.map fun c => (s, .ok (.text c.value.toText))

/-- The steps in turn, and what each of them reports. -/
def run (s : Session) : List Step → Option (Session × List (Except Failure Report))
  | [] => some (s, [])
  | first :: rest => do
    let (s, report) ← s.step first
    let (s, reports) ← run s rest
    some (s, report :: reports)

end Session

end ExactDecimal
