import DiceNotation.Text

/-!
# Selection by rank

A drop/keep modifier sums some of the values of a pool, chosen by rank: it
drops or keeps as many of the highest or lowest as its threshold says.
-/

namespace DiceNotation

/-- The ways to choose values by rank. -/
inductive Selection where
  | dropHighest
  | dropLowest
  | keepHighest
  | keepLowest
  deriving DecidableEq, Repr

namespace Selection

/-- The two letters that stand for the selection. -/
def code : Selection → Text
  | dropHighest => ['D', 'H']
  | dropLowest => ['D', 'L']
  | keepHighest => ['K', 'H']
  | keepLowest => ['K', 'L']

/-- The selection that an upper-case code stands for. -/
def ofCode? : Text → Option Selection
  | ['D', 'H'] => some dropHighest
  | ['D', 'L'] => some dropLowest
  | ['K', 'H'] => some keepHighest
  | ['K', 'L'] => some keepLowest
  | _ => none

/-- The selection that a code in any case stands for. -/
def ofText? (s : Text) : Option Selection :=
  ofCode? (s.map Char.toUpper)

/-- The place of the selection in the list of selections. -/
def index : Selection → Int
  | dropHighest => 0
  | dropLowest => 1
  | keepHighest => 2
  | keepLowest => 3

/-- The selection at a place in the list of selections. -/
def ofIndex? : Int → Option Selection
  | 0 => some dropHighest
  | 1 => some dropLowest
  | 2 => some keepHighest
  | 3 => some keepLowest
  | _ => none

/-- The name of the selection at a place, two question marks if there is
none. -/
def nameAt (i : Int) : Text :=
  match ofIndex? i with
  | some selection => selection.code
  | none => ['?', '?']

/-- Reading the code of a selection gives the selection back. -/
theorem ofCode?_code (s : Selection) : ofCode? s.code = some s := by
  cases s <;> rfl

/-- The selection at the place of a selection is that selection. -/
theorem ofIndex?_index (s : Selection) : ofIndex? s.index = some s := by
  cases s <;> rfl

/-- The values in ascending order. -/
def ascending (values : List Int) : List Int :=
  values.mergeSort fun a b => a ≤ b

/-- The chosen values, in ascending order. -/
def choose (s : Selection) (threshold : Nat) (values : List Int) : List Int :=
  let ranked := ascending values
  let others := values.length - threshold
  match s with
  | dropHighest => ranked.take others
  | dropLowest => ranked.drop threshold
  | keepHighest => ranked.drop others
  | keepLowest => ranked.take threshold

end Selection
end DiceNotation
