/-!
# The Mersenne twister

The generator of 32-bit words with 624 words of state and a period of
`2 ^ 19937 - 1`.  The state is filled from a seed, all of it is renewed at once
when its words are used up, and every word is tempered before it is given out.
-/

namespace DiceNotation

/-- A Mersenne twister: its words and how many of them were given out. -/
structure Twister where
  words : Array UInt32
  position : Nat

namespace Twister

/-- The number of words of the state. -/
def size : Nat := 624

/-- How far ahead the word lies that a renewed word is combined with. -/
def shift : Nat := 397

/-- The words with one more word, made of the last one and the number of
words. -/
def extend (words : Array UInt32) : Array UInt32 :=
  let last := words.back?.getD 0
  words.push ((last ^^^ (last >>> 30)) * 1812433253 + UInt32.ofNat words.size)

/-- The state that belongs to a seed. -/
def ofSeed (seed : UInt32) : Twister where
  words := (size - 1).repeat extend #[seed]
  position := size

/-- The words with the word at a place renewed. -/
def renewAt (words : Array UInt32) (i : Nat) : Array UInt32 :=
  let joined := (words.getD i 0 &&& 0x80000000) |||
    (words.getD ((i + 1) % size) 0 &&& 0x7fffffff)
  let twisted :=
    if joined &&& 1 = 1 then (joined >>> 1) ^^^ 0x9908b0df else joined >>> 1
  words.setIfInBounds i (words.getD ((i + shift) % size) 0 ^^^ twisted)

/-- The words, all renewed from first to last. -/
def renew (words : Array UInt32) : Array UInt32 :=
  (List.range size).foldl renewAt words

/-- A word of the state as it is given out. -/
def temper (word : UInt32) : UInt32 :=
  let a := word ^^^ (word >>> 11)
  let b := a ^^^ ((a <<< 7) &&& 0x9d2c5680)
  let c := b ^^^ ((b <<< 15) &&& 0xefc60000)
  c ^^^ (c >>> 18)

/-- The next word, and the twister after it. -/
def next (t : Twister) : UInt32 × Twister :=
  if t.position < size then
    (temper (t.words.getD t.position 0), { t with position := t.position + 1 })
  else
    let words := renew t.words
    (temper (words.getD 0 0), ⟨words, 1⟩)

end Twister

end DiceNotation
