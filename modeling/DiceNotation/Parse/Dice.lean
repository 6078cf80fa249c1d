import DiceNotation.Node.Build
import DiceNotation.Parse.Lexical

/-!
# Reading dice

A die is written as the letter `D` and its sides: their number, a percent sign
for a hundred, `F` for a fudge die, or a list of faces in brackets.  A count in
front makes a pool of that many dice.
-/

namespace DiceNotation
namespace Parse

/-- A reader that builds nodes as it goes. -/
abbrev Reader (α : Type) := Text → Building (α × Text)

/-- Refuses the text for a syntax fault. -/
def refuse {α : Type} (fault : SyntaxFault) : Building α :=
  throw (.badSyntax fault)

/-- Takes the result of a reader that builds nothing. -/
def scanned {α : Type} (result : Except SyntaxFault α) : Building α :=
  match result with
  | .ok a => pure a
  | .error fault => refuse fault

/-- Reads a face of a die that lists its faces. -/
def face (whole : Text) : Scan Int := fun s => do
  match ← integer true s with
  | (some n, rest) => .ok (n, rest)
  | (none, rest) => .error (.missingFace rest whole)

/-- Reads faces with commas between them, as many as are still allowed. -/
def faces (whole : Text) : Nat → Scan (List Int)
  | 0, s => do
      let _ ← face whole s
      .error .tooManyFaces
  | allowed + 1, s => do
      let (n, rest) ← face whole s
      match rest with
      | ',' :: more =>
          let (others, rest) ← faces whole allowed more
          .ok (n :: others, rest)
      | _ => .ok ([n], rest)

/-- Reads the sides of a die.  The whole group, from its count on, is quoted if
the number of sides is missing or too small. -/
def sides (whole group : Text) : Scan Die
  | 'F' :: rest => .ok (.fudge, rest)
  | '%' :: rest => .ok (.sided 100, rest)
  | '[' :: rest => do
      let (faces, rest) ← faces whole Die.mostFaces rest
      let (_, rest) ← expect ']' whole rest
      .ok (.custom faces, rest)
  | s => do
      match ← integer false s with
      | (some n, rest) =>
          if n < 2 then
            .error (.tooFewSides (consumed group rest))
          else
            .ok (.sided n.toNat, rest)
      | (none, rest) => .error (.tooFewSides (consumed group rest))

/-- Reads the count of a group of dice, which is one if it is left out. -/
def count : Scan Nat := fun s => do
  let (n, rest) ← integer false s
  let n := n.getD 1
  if n < 1 then
    .error (.countTooSmall (consumed s rest))
  else if mostCopies < n then
    .error (.countTooLarge (consumed s rest))
  else
    .ok (n.toNat, rest)

/-- Reads the count and the die of a group of dice. -/
def countedDie (whole : Text) : Scan (Nat × Die) := fun s => do
  let (n, rest) ← count s
  match rest with
  | 'D' :: more =>
      let (d, rest) ← sides whole s more
      .ok ((n, d), rest)
  | _ => .error (.missingDie s whole)

/-- Reads a group of dice: a die, or a pool of copies of a die. -/
def dice (whole : Text) : Reader Node := fun s => do
  let ((n, d), rest) ← scanned (countedDie whole s)
  let node ← Build.die d
  if n = 1 then
    return (node, rest)
  else
    return (← Build.repeated node n, rest)

end Parse
end DiceNotation
