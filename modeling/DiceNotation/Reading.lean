import DiceNotation.Numeral
import DiceNotation.Operator

/-!
# Readings

A reading is a value together with the trace that explains how it came about.
The trace of a sum joins the traces of its parts, each in parentheses where it
would be misread otherwise, and the trace of an operator shows the operand
value, the operator and the operand.
-/

namespace DiceNotation

/-- A value and the trace that explains it. -/
structure Reading where
  value : Int
  trace : Text
  deriving DecidableEq, Repr

namespace Trace

/-- A trace as a part of a sum: a sum or a negative number is put into
parentheses. -/
def asSummand (trace : Text) : Text :=
  if '+' ∈ trace ∨ trace.head? = some '-' then Text.parenthesize trace
  else trace

/-- A trace as the operand of an operator: a compound or a negative number is
put into parentheses. -/
def asOperand (trace : Text) : Text :=
  if ' ' ∈ trace ∨ trace.head? = some '-' then Text.parenthesize trace
  else trace

/-- The traces of a sum's parts as one trace, zero for no parts. -/
def join : List Text → Text
  | [] => ['0']
  | parts => [' ', '+', ' '].intercalate parts

end Trace

namespace Reading

/-- A value that explains itself. -/
def ofValue (value : Int) : Reading :=
  ⟨value, numeral value⟩

/-- The sum of readings: the exact sum is clamped once. -/
def total (parts : List Reading) : Reading :=
  ⟨clamp ((parts.map value).foldr (· + ·) 0),
    Trace.join (parts.map fun r => Trace.asSummand r.trace)⟩

/-- The reading that an operator with an operand makes of a reading. -/
def operate (op : Operator) (operand : Nat) (r : Reading) : Reading :=
  ⟨op.apply operand r.value,
    Trace.asOperand r.trace ++ [' ', op.symbol, ' '] ++ numeral operand⟩

end Reading
end DiceNotation
