import DiceNotation.Numeral

/-!
# Dice

A die has sides numbered from one, a list of faces, or the three faces minus
one, zero and one of a fudge die.  Rolling it takes one random number from a
range, which for listed faces is a position in the list.
-/

namespace DiceNotation

/-- The kinds of dice. -/
inductive Die where
  | sided (sides : Nat)
  | custom (faces : List Int)
  | fudge
  deriving DecidableEq, Repr

namespace Die

/-- The most faces that a die may list. -/
def mostFaces : Nat := 1000

/-- The faces of a die that lists them, and none for a sided die. -/
def listedFaces : Die → List Int
  | sided _ => []
  | custom faces => faces
  | fudge => [-1, 0, 1]

/-- The least face. -/
def lowest : Die → Int
  | sided _ => 1
  | custom faces => faces.min?.getD 0
  | fudge => -1

/-- The greatest face. -/
def highest : Die → Int
  | sided sides => sides
  | custom faces => faces.max?.getD 0
  | fudge => 1

/-- The range of the random number that a roll takes. -/
def range : Die → Int × Int
  | sided sides => (1, sides)
  | custom faces => (0, faces.length - 1)
  | fudge => (-1, 1)

/-- The face that a random number from the range shows. -/
def face : Die → Int → Int
  | custom faces, answer => faces.getD answer.toNat 0
  | _, answer => answer

/-- The die as it is written in dice expressions. -/
def render : Die → Text
  | sided sides => 'D' :: numeral sides
  | custom faces => 'D' :: '[' :: [','].intercalate (faces.map numeral) ++ [']']
  | fudge => ['D', 'F']

end Die
end DiceNotation
