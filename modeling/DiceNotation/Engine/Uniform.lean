import DiceNotation.Engine.Basic

/-!
# Uniform numbers from random words

A number from a range is made of a random 32-bit word by multiplication: the
high half of the product of the word and the size of the range is the place in
the range.  Words whose product has too small a low half are rejected, so that
every place comes from equally many words.

All of this is done in machine words.  Only the range of all numbers is too
large for the size to be a word; there, every word is a place of its own.
-/

namespace DiceNotation
namespace Uniform

/-- The number of different words. -/
def wordCount : UInt64 := 4294967296

/-- The size of a range. -/
def size (low high : Int32) : UInt64 :=
  (high.toInt64 - low.toInt64).toUInt64 + 1

/-- Products with a low half below the threshold are rejected. -/
def threshold (size : UInt32) : UInt32 :=
  (0 - size) % size

/-- The place in a range of the given size that a word stands for, unless the
word is rejected.  The threshold is smaller than the size, so it is only
computed if the low half of the product is smaller too. -/
def place? (size : UInt64) (word : UInt32) : Option UInt32 :=
  if size = wordCount then
    some word
  else
    let product := word.toUInt64 * size
    let low := product.toUInt32
    if low < size.toUInt32 && low < threshold size.toUInt32 then
      none
    else
      some (product >>> 32).toUInt32

/-- The number from a range that a word stands for, unless the word is
rejected. -/
def number? (low high : Int32) (word : UInt32) : Option Int32 :=
  (place? (size low high) word).map fun place => low + place.toInt32

/-- The first number from the range that a stream of words yields within the
given number of tries, with the rest of the stream. -/
def draw {γ : Type} (next : γ → UInt32 × γ) (low high : Int32) :
    Nat → γ → Option (Int32 × γ)
  | 0, _ => none
  | tries + 1, s =>
      let (word, rest) := next s
      match number? low high word with
      | some n => some (n, rest)
      | none => draw next low high tries rest

end Uniform
end DiceNotation
