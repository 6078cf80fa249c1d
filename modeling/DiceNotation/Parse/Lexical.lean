import DiceNotation.Error
import DiceNotation.Operator
import DiceNotation.Selection

/-!
# Words of dice expressions

Readers take a text and return what they found in front of it together with
the rest of the text.  They work on normalized text, from left to right and
without going back.
-/

namespace DiceNotation
namespace Parse

/-- A reader that may find a syntax fault. -/
abbrev Scan (α : Type) := Text → Except SyntaxFault (α × Text)

/-- The part of a text in front of a rest of it. -/
def consumed (start rest : Text) : Text :=
  start.take (start.length - rest.length)

/-- Splits off a sign, if signs are allowed and a digit follows. -/
def splitSign (signed : Bool) : Text → Text × Text
  | c :: d :: rest =>
      if signed && (c = '-' || c = '+') && d.isDigit then
        ([c], d :: rest)
      else
        ([], c :: d :: rest)
  | s => ([], s)

/-- Splits off all digits in front. -/
def splitDigits (s : Text) : Text × Text :=
  (s.takeWhile Char.isDigit, s.dropWhile Char.isDigit)

/-- Reads an integer with as many digits as there are, if there is one. -/
def integer (signed : Bool) : Scan (Option Int) := fun s =>
  let (sign, unsigned) := splitSign signed s
  let (digits, rest) := splitDigits unsigned
  let word := sign ++ digits
  if word = [] then
    .ok (none, s)
  else if Limits.Holds (Numeral.value word) then
    .ok (some (Numeral.value word), rest)
  else
    .error (.outOfRange word)

/-- Reads a character that has to be there. -/
def expect (c : Char) (whole : Text) : Scan Unit
  | d :: rest =>
      if d = c then .ok ((), rest) else .error (.expected c (d :: rest) whole)
  | [] => .error (.expected c [] whole)

/-- Whether the text starts with a group: a parenthesis, or a die with or
without a count. -/
def startsGroup (s : Text) : Bool :=
  let (digits, rest) := splitDigits s
  match rest with
  | 'D' :: _ => true
  | '(' :: _ => digits = []
  | _ => false

/-- Reads the code of a selection, if there is one.  The letters that start
one cannot stand for anything else here. -/
def selection : Scan (Option Selection) := fun s =>
  match s with
  | [] => .ok (none, s)
  | c :: _ =>
      if c = 'D' || c = 'K' then
        match Selection.ofCode? (s.take 2) with
        | some selection => .ok (some selection, s.drop 2)
        | none => .error (.unknownSelection (s.take 2))
      else
        .ok (none, s)

/-- Reads a comparator, if there is one. -/
def comparator : Text → Option Comparator × Text
  | [] => (none, [])
  | c :: rest =>
      match Comparator.ofSymbol? c with
      | some comparator => (some comparator, rest)
      | none => (none, c :: rest)

/-- Reads the operator of an arithmetic suffix, if there is one.  A plus sign
in front of a group is none: it starts another term. -/
def operator : Text → Option (Operator × Text)
  | [] => none
  | c :: rest =>
      if c = '+' && startsGroup rest then
        none
      else
        (Operator.ofSymbol? c).map fun op => (op, rest)

/-- What was read and the rest make up the text. -/
theorem consumed_append (word rest : Text) :
    consumed (word ++ rest) rest = word := by
  simp [consumed]

/-- Splitting off a sign loses nothing. -/
theorem splitSign_append (signed : Bool) (s : Text) :
    (splitSign signed s).1 ++ (splitSign signed s).2 = s := by
  unfold splitSign
  split
  · split <;> rfl
  · rfl

/-- Splitting off digits loses nothing. -/
theorem splitDigits_append (s : Text) :
    (splitDigits s).1 ++ (splitDigits s).2 = s :=
  List.takeWhile_append_dropWhile

end Parse
end DiceNotation
