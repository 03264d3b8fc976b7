import ExactDecimal.Numeral
import ExactDecimal.Error
import ExactDecimal.Rounding
import ExactDecimal.Decimal.Basic
import ExactDecimal.Decimal.Division
import ExactDecimal.Decimal.Order
import ExactDecimal.Text
import ExactDecimal.Binary.Format
import ExactDecimal.Binary.Nearest
import ExactDecimal.Binary.Shortest
import ExactDecimal.Literal
import ExactDecimal.Json
import ExactDecimal.Packed
import ExactDecimal.Operation
import ExactDecimal.Pool
import ExactDecimal.Session
import ExactDecimal.Proofs.Value
import ExactDecimal.Proofs.Comparison
import ExactDecimal.Proofs.Grammar
import ExactDecimal.Proofs.Reading
import ExactDecimal.Proofs.Digits
import ExactDecimal.Proofs.RoundTrip
import ExactDecimal.Proofs.Literals
import ExactDecimal.Proofs.Arithmetic
import ExactDecimal.Proofs.Totals
import ExactDecimal.Proofs.Quotient
import ExactDecimal.Proofs.Modes
import ExactDecimal.Proofs.Division
import ExactDecimal.Proofs.Congruence
import ExactDecimal.Proofs.DigitBudget
import ExactDecimal.Proofs.RememberedCounts
import ExactDecimal.Proofs.Groups
import ExactDecimal.Proofs.Midpoints
import ExactDecimal.Proofs.Interval
import ExactDecimal.Proofs.Nearest
import ExactDecimal.Proofs.BinaryValue
import ExactDecimal.Proofs.ToBinary
import ExactDecimal.Proofs.ExactBinary
import ExactDecimal.Proofs.Canonical
import ExactDecimal.Proofs.Stored
import ExactDecimal.Proofs.Shortest
import ExactDecimal.Proofs.JsonNumbers
import ExactDecimal.Proofs.Expansion
import ExactDecimal.Proofs.Monotone
import ExactDecimal.Proofs.FewestDigits
import ExactDecimal.Proofs.Stages
import ExactDecimal.Proofs.BudgetStages
import ExactDecimal.Proofs.WrittenExponents
import ExactDecimal.Proofs.Faults
import ExactDecimal.Proofs.MachineWords
