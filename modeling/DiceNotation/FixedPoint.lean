import DiceNotation.Numeral

/-!
# Fixed-point text

A floating point number is written with six decimals, rounded from its exact
binary value.  A number halfway between two decimals goes to the even one, and
a negative number keeps its sign even when it rounds to zero.
-/

namespace DiceNotation
namespace FixedPoint

/-- The integer nearest to a quotient, the even one of two that are equally
near. -/
def roundDiv (num den : Nat) : Nat :=
  let floor := num / den
  let excess := 2 * (num % den)
  if den < excess ∨ (excess = den ∧ floor % 2 = 1) then floor + 1 else floor

/-- The number of millionths nearest to `mantissa * 2 ^ exponent`. -/
def millionths (mantissa : Nat) : Int → Nat
  | .ofNat e => (mantissa * 1000000) <<< e
  | .negSucc e => roundDiv (mantissa * 1000000) (1 <<< (e + 1))

/-- A number of millionths, written with six decimals. -/
def renderMillionths (n : Nat) : Text :=
  let decimals := Nat.toDigits 10 (n % 1000000)
  Nat.toDigits 10 (n / 1000000) ++ '.' ::
    (List.replicate (6 - decimals.length) '0' ++ decimals)

/-- The text of a number given by its sign bit, its eleven exponent bits and
its fraction bits. -/
def renderParts (negative : Bool) (exponent fraction : Nat) : Text :=
  let magnitude : Text :=
    if exponent = 2047 then
      if fraction = 0 then ['i', 'n', 'f'] else ['n', 'a', 'n']
    else if exponent = 0 then
      renderMillionths (millionths fraction (-1074))
    else
      renderMillionths (millionths ((1 <<< 52) + fraction)
        ((exponent : Int) - 1075))
  if negative then '-' :: magnitude else magnitude

/-- The text of a floating point number. -/
def render (x : Float) : Text :=
  let bits := x.toBits.toNat
  renderParts (bits >>> 63 = 1) ((bits >>> 52) % 2048) (bits % (1 <<< 52))

/-- Rounding a quotient is off by at most half a unit. -/
theorem roundDiv_within_half
    {num den : Nat}
    (hden : 0 < den) :
    2 * (roundDiv num den * den) ≤ 2 * num + den ∧
      2 * num ≤ 2 * (roundDiv num den * den) + den := by
  have hsplit : den * (num / den) + num % den = num := Nat.div_add_mod num den
  have hmod : num % den < den := Nat.mod_lt num hden
  have hcomm : num / den * den = den * (num / den) := Nat.mul_comm _ _
  simp only [roundDiv]
  split
  · rw [Nat.add_mul, Nat.one_mul, hcomm]
    omega
  · rw [hcomm]
    omega

end FixedPoint
end DiceNotation
