/-!
# The range of values

Every value of a roll or a bound lies in the range of signed 32-bit integers.
Intermediate results are exact integers, and a result outside the range is
replaced by the nearer end of it.
-/

namespace DiceNotation

namespace Limits

/-- The smallest value. -/
def lowest : Int := -2147483648

/-- The largest value. -/
def highest : Int := 2147483647

/-- The integers that are values. -/
def Holds (n : Int) : Prop :=
  lowest ≤ n ∧ n ≤ highest

instance (n : Int) : Decidable (Holds n) :=
  inferInstanceAs (Decidable (lowest ≤ n ∧ n ≤ highest))

end Limits

/-- The value nearest to an integer. -/
def clamp (n : Int) : Int :=
  max Limits.lowest (min n Limits.highest)

/-- A clamped integer is a value. -/
theorem clamp_holds (n : Int) : Limits.Holds (clamp n) := by
  simp only [Limits.Holds, clamp, Limits.lowest, Limits.highest]
  omega

/-- Clamping leaves values alone. -/
theorem clamp_of_holds
    {n : Int}
    (h : Limits.Holds n) :
    clamp n = n := by
  simp only [Limits.Holds, clamp, Limits.lowest, Limits.highest] at *
  omega

/-- Clamping keeps the order. -/
theorem clamp_mono
    {m n : Int}
    (h : m ≤ n) :
    clamp m ≤ clamp n := by
  simp only [clamp, Limits.lowest, Limits.highest]
  omega

end DiceNotation
