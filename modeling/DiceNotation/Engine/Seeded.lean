import DiceNotation.Engine.Twister
import DiceNotation.Engine.Uniform
import DiceNotation.Limits

/-!
# The seeded engine

An engine that answers with uniform numbers made of the words of a Mersenne
twister.  Equal seeds give equal answers to equal requests.
-/

namespace DiceNotation

/-- A seeded source of uniform numbers: its twister and the number of answers
that it may still give. -/
structure Seeded where
  twister : Twister
  left : Nat

namespace Seeded

/-- The number of answers that a seeded source may give. -/
def supply : Nat := 20000

/-- The number of words that may be tried for one answer.  At most every second
word is rejected. -/
def tries : Nat := 1000

/-- The source that belongs to a seed. -/
def ofSeed (seed : UInt32) : Seeded :=
  ⟨Twister.ofSeed seed, supply⟩

end Seeded

/-- The engine that answers with uniform numbers from a seeded source.  It can
only be asked for signed 32-bit numbers. -/
def Engine.seeded : Engine Seeded where
  answer low high
    | ⟨_, 0⟩ => none
    | ⟨twister, left + 1⟩ =>
        if Limits.Holds low ∧ Limits.Holds high then
          (Uniform.draw Twister.next (Int32.ofInt low)
            (Int32.ofInt high) Seeded.tries twister).map
            fun (n, rest) => (n.toInt, ⟨rest, left⟩)
        else
          none
  remaining := Seeded.left
  spends := by
    intro low high n s t h
    obtain ⟨twister, left⟩ := s
    cases left with
    | zero => simp at h
    | succ left =>
        simp only [Option.ite_none_right_eq_some, Option.map_eq_some_iff,
          Prod.mk.injEq] at h
        obtain ⟨-, ⟨m, rest⟩, -, -, rfl⟩ := h
        exact Nat.lt_succ_self left

end DiceNotation
