import DiceNotation.Text

/-!
# Comparators

An exploding die is rolled again for as long as its result compares in a given
way with a threshold.
-/

namespace DiceNotation

/-- The ways in which a result can call for another roll. -/
inductive Comparator where
  | equal
  | greater
  | less
  deriving DecidableEq, Repr

namespace Comparator

/-- The character that stands for the comparator. -/
def symbol : Comparator → Char
  | equal => '='
  | greater => '>'
  | less => '<'

/-- The comparator that a character stands for. -/
def ofSymbol? : Char → Option Comparator
  | '=' => some equal
  | '>' => some greater
  | '<' => some less
  | _ => none

/-- The comparator that a one-character text stands for. -/
def ofText? : Text → Option Comparator
  | [c] => ofSymbol? c
  | _ => none

/-- The place of the comparator in the list of comparators. -/
def index : Comparator → Int
  | equal => 0
  | greater => 1
  | less => 2

/-- The comparator at a place in the list of comparators. -/
def ofIndex? : Int → Option Comparator
  | 0 => some equal
  | 1 => some greater
  | 2 => some less
  | _ => none

/-- The name of the comparator at a place, a question mark if there is none. -/
def nameAt (i : Int) : Text :=
  match ofIndex? i with
  | some comparator => [comparator.symbol]
  | none => ['?']

/-- Reading the symbol of a comparator gives the comparator back. -/
theorem ofSymbol?_symbol (c : Comparator) : ofSymbol? c.symbol = some c := by
  cases c <;> rfl

/-- The comparator at the place of a comparator is that comparator. -/
theorem ofIndex?_index (c : Comparator) : ofIndex? c.index = some c := by
  cases c <;> rfl

/-- Whether a result calls for another roll. -/
def triggers (c : Comparator) (threshold result : Int) : Bool :=
  match c with
  | equal => result = threshold
  | greater => threshold < result
  | less => result < threshold

/-- Whether every result between the bounds calls for another roll, as far as
the bounds show.  For a strict comparison a threshold that coincides with a
bound counts as endless too. -/
def isEndless (c : Comparator) (threshold low high : Int) : Bool :=
  match c with
  | equal => threshold = high && low = high
  | greater => threshold ≤ low
  | less => high ≤ threshold

end Comparator
end DiceNotation
