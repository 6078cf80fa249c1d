import DiceNotation.Text

/-!
# Decimal numerals

How an integer is written in decimal, and which integer a written numeral
denotes.  The two agree: the value of a written integer is that integer.
-/

namespace DiceNotation

/-- The decimal digits of an integer, after a minus sign if it is negative. -/
def numeral : Int → Text
  | .ofNat n => Nat.toDigits 10 n
  | .negSucc n => '-' :: Nat.toDigits 10 (n + 1)

namespace Numeral

/-- The integer that a digit string denotes, with an optional sign in front. -/
def value : Text → Int
  | '-' :: digits => -(Nat.ofDigitChars 10 digits 0 : Nat)
  | '+' :: digits => (Nat.ofDigitChars 10 digits 0 : Nat)
  | digits => (Nat.ofDigitChars 10 digits 0 : Nat)

/-- A digit string without a sign denotes its digits' value. -/
theorem value_of_isDigit
    {s : Text}
    (h : ∀ c ∈ s, c.isDigit = true) :
    value s = (Nat.ofDigitChars 10 s 0 : Nat) := by
  unfold value
  split
  · exact absurd (h '-' (by simp)) (by decide)
  · rfl
  · rfl

/-- Reading a written integer gives the integer back. -/
theorem value_numeral (n : Int) : value (numeral n) = n := by
  cases n with
  | ofNat n =>
      rw [numeral, value_of_isDigit fun c hc =>
        Nat.isDigit_of_mem_toDigits (by decide) (by decide) hc]
      simp
  | negSucc n =>
      simp [numeral, value, Int.negSucc_eq]

/-- A written integer is not empty. -/
theorem numeral_ne_nil (n : Int) : numeral n ≠ [] := by
  cases n with
  | ofNat n => simp [numeral]
  | negSucc n => simp [numeral]

/-- Different integers are written differently. -/
theorem numeral_injective
    {m n : Int}
    (h : numeral m = numeral n) :
    m = n := by
  rw [← value_numeral m, h, value_numeral]

end Numeral
end DiceNotation
