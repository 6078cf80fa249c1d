import DiceNotation.Limits
import DiceNotation.Text

/-!
# Arithmetic operators

An arithmetic modifier applies one of five operators with a fixed operand to a
value.  The result is the exact integer result clamped to the range of values;
division truncates toward zero, and anything to the power zero is one.
-/

namespace DiceNotation

/-- The arithmetic operators. -/
inductive Operator where
  | add
  | subtract
  | multiply
  | divide
  | power
  deriving DecidableEq, Repr

namespace Operator

/-- The character that stands for the operator. -/
def symbol : Operator → Char
  | add => '+'
  | subtract => '-'
  | multiply => '*'
  | divide => '/'
  | power => '^'

/-- The operator that a character stands for. -/
def ofSymbol? : Char → Option Operator
  | '+' => some add
  | '-' => some subtract
  | '*' => some multiply
  | '/' => some divide
  | '^' => some power
  | _ => none

/-- The operator that a one-character text stands for. -/
def ofText? : Text → Option Operator
  | [c] => ofSymbol? c
  | _ => none

/-- The place of the operator in the list of operators. -/
def index : Operator → Int
  | add => 0
  | subtract => 1
  | multiply => 2
  | divide => 3
  | power => 4

/-- The operator at a place in the list of operators. -/
def ofIndex? : Int → Option Operator
  | 0 => some add
  | 1 => some subtract
  | 2 => some multiply
  | 3 => some divide
  | 4 => some power
  | _ => none

/-- The name of the operator at a place, a question mark if there is none. -/
def nameAt (i : Int) : Text :=
  match ofIndex? i with
  | some op => [op.symbol]
  | none => ['?']

/-- Reading the symbol of an operator gives the operator back. -/
theorem ofSymbol?_symbol (op : Operator) : ofSymbol? op.symbol = some op := by
  cases op <;> rfl

/-- The operator at the place of an operator is that operator. -/
theorem ofIndex?_index (op : Operator) : ofIndex? op.index = some op := by
  cases op <;> rfl

/-- Multiplies by the base as often as said, and gives up with `overflow` at
the first product that is not a value. -/
def powerFrom (base overflow : Int) : Nat → Int → Int
  | 0, product => product
  | n + 1, product =>
      if Limits.Holds (product * base) then
        powerFrom base overflow n (product * base)
      else
        overflow

/-- A power, clamped.  The bases one, zero and minus one need no products, and
with any other base few products suffice to leave the range of values. -/
def raise (base : Int) (exponent : Nat) : Int :=
  if exponent = 0 ∨ base = 1 then
    1
  else if base = 0 then
    0
  else if base < 0 ∧ exponent % 2 = 1 then
    if base = -1 then -1 else powerFrom base Limits.lowest exponent 1
  else
    if base = -1 then 1 else powerFrom base Limits.highest exponent 1

/-- The value that the operator makes of a value and an operand. -/
def apply (op : Operator) (operand : Nat) (value : Int) : Int :=
  match op with
  | add => clamp (value + operand)
  | subtract => clamp (value - operand)
  | multiply => clamp (value * operand)
  | divide => value.tdiv operand
  | power => raise value operand

/-- Whether the operator with this operand is a power with a positive even
exponent.  No other operator changes the order of values. -/
def isEvenPower (op : Operator) (operand : Nat) : Bool :=
  op = power && 0 < operand && operand % 2 = 0

/-- The first of the candidates whose image is smallest. -/
def firstLeast (image : Int → Int) (first : Int) : List Int → Int
  | [] => first
  | c :: rest =>
      firstLeast image (if image c < image first then c else first) rest

/-- The operand value at which the least result is assumed, for values between
`low` and `high` that are the `faces`, if these are listed. -/
def leastAt (op : Operator) (operand : Nat) (faces : List Int)
    (low high : Int) : Int :=
  if op.isEvenPower operand && low < 0 && 0 < high then
    match faces with
    | [] => 0
    | face :: rest => firstLeast (op.apply operand) face rest
  else if op.apply operand low ≤ op.apply operand high then
    low
  else
    high

/-- The operand value at which the greatest result is assumed, for values
between `low` and `high`. -/
def greatestAt (op : Operator) (operand : Nat) (low high : Int) : Int :=
  if op.apply operand low ≤ op.apply operand high then high else low

end Operator
end DiceNotation
