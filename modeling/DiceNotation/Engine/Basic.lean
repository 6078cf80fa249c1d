import DiceNotation.Limits

/-!
# Engines

An engine answers requests for random numbers from a finite supply.  Its
answers may depend on everything that was asked before, through its state, and
every answer uses some of the supply up.
-/

namespace DiceNotation

/-- A source of random numbers with states of type `σ`.  A request names the
least and the greatest acceptable number. -/
structure Engine (σ : Type) where
  answer : Int → Int → σ → Option (Int × σ)
  remaining : σ → Nat
  spends : ∀ {low high n : Int} {s t : σ},
    answer low high s = some (n, t) → remaining t < remaining s

namespace Engine

/-- The engine that answers with the numbers of a list, each moved into the
requested range by a multiple of the size of the range. -/
def script : Engine (List Int) where
  answer low high
    | [] => none
    | n :: rest => some (low + (n - low) % (high - low + 1), rest)
  remaining := List.length
  spends := by
    intro low high n s t h
    cases s with
    | nil => simp at h
    | cons m rest =>
        simp only [Option.some.injEq, Prod.mk.injEq] at h
        obtain ⟨-, rfl⟩ := h
        simp

/-- Two engines side by side, of which the state decides between them. -/
def either {α β : Type} (left : Engine α) (right : Engine β) :
    Engine (α ⊕ β) where
  answer low high
    | .inl s => (left.answer low high s).map fun (n, t) => (n, .inl t)
    | .inr s => (right.answer low high s).map fun (n, t) => (n, .inr t)
  remaining
    | .inl s => left.remaining s
    | .inr s => right.remaining s
  spends := by
    intro low high n s t h
    cases s with
    | inl s =>
        simp only [Option.map_eq_some_iff, Prod.mk.injEq] at h
        obtain ⟨⟨m, u⟩, hu, -, rfl⟩ := h
        exact left.spends hu
    | inr s =>
        simp only [Option.map_eq_some_iff, Prod.mk.injEq] at h
        obtain ⟨⟨m, u⟩, hu, -, rfl⟩ := h
        exact right.spends hu

/-- A scripted number inside the requested range is answered as it is. -/
theorem script_answer_of_mem
    {low high n : Int}
    (rest : List Int)
    (hlow : low ≤ n)
    (hhigh : n ≤ high) :
    script.answer low high (n :: rest) = some (n, rest) := by
  have hmod : (n - low) % (high - low + 1) = n - low :=
    Int.emod_eq_of_lt (by omega) (by omega)
  simp only [script, hmod, Option.some.injEq, Prod.mk.injEq, and_true]
  omega

end Engine
end DiceNotation
