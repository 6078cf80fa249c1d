/-!
# Text as bytes

Dice expressions, traces and messages are byte strings.  A text is a list of
characters, each of which stands for one byte.  The character classes used
here know ASCII only, so a byte from 128 on is neither blank, nor a letter,
nor a digit.
-/

namespace DiceNotation

/-- A byte string: every character stands for the byte of its code. -/
abbrev Text := List Char

namespace Text

/-- The blank characters: space, tab, line feed, vertical tab, form feed and
carriage return. -/
def isBlank (c : Char) : Bool :=
  c = ' ' || (9 ≤ c.toNat && c.toNat ≤ 13)

/-- The text without blanks and in upper case, the form in which dice
expressions are read. -/
def normalize (s : Text) : Text :=
  (s.filter fun c => !isBlank c).map Char.toUpper

/-- The text up to its first NUL byte. -/
def untilNul (s : Text) : Text :=
  s.takeWhile fun c => c.toNat ≠ 0

/-- The text between parentheses. -/
def parenthesize (s : Text) : Text :=
  '(' :: s ++ [')']

/-- The texts one after another, separated by single spaces. -/
def words (parts : List Text) : Text :=
  [' '].intercalate parts

end Text
end DiceNotation
