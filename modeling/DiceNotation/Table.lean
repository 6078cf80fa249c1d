import DiceNotation.Engine.Basic
import DiceNotation.Memory

/-!
# The table at which dice are rolled

A roll changes the memory, asks an engine for random numbers and is broken off
when the engine has none left.  The table holds the memory, the state of the
engine and the requests made so far.

Rolling again while something holds is bounded by the engine's supply: as long
as every round asks for a number, the engine runs out first.
-/

namespace DiceNotation

/-- What a roll works on. -/
structure Table (σ : Type) where
  memory : Memory
  source : σ
  requests : Array (Int × Int)

/-- Why a roll is broken off: the engine has no number left, or rounds that
ask for no number would go on forever. -/
inductive Abort where
  | exhausted
  | endless
  deriving DecidableEq, Repr

/-- The explanation of an abort. -/
def Abort.message : Abort → Text
  | exhausted => "no values left".toList
  | endless => "no end".toList

/-- A computation at a table.  What it did to the table stays when it is broken
off. -/
abbrev Rolling (σ α : Type) := ExceptT Abort (StateM (Table σ)) α

namespace Rolling

variable {σ α : Type}

/-- An evaluation at a table, which concerns only the memory. -/
def ofEvaluation (e : Evaluation α) : Rolling σ α :=
  ExceptT.lift fun ⟨memory, source, requests⟩ =>
    let (a, memory) := e.run memory
    (a, ⟨memory, source, requests⟩)

/-- Asks the engine for a number.  The request counts even if the engine has
none left. -/
def draw (engine : Engine σ) (low high : Int) : Rolling σ Int := do
  modify fun t => { t with requests := t.requests.push (low, high) }
  let t ← get
  match engine.answer low high t.source with
  | none => throw .exhausted
  | some (n, source) =>
      set { t with source }
      return n

/-- Rolls a node: its trace is emptied first and set in the end. -/
def settle (node : NodeId) (roll : Rolling σ Outcome) : Rolling σ Outcome := do
  ofEvaluation (Memory.setTrace node [])
  let o ← roll
  ofEvaluation (Memory.setTrace node o.trace)
  return o

/-- Rolls once, and again as long as the last outcome calls for it, in at most
the given number of rounds. -/
def repeatUpTo (again : Outcome → Bool) (roll : Rolling σ Outcome) :
    Nat → Rolling σ (List Outcome)
  | 0 => throw .endless
  | rounds + 1 => do
      let o ← roll
      if again o then
        let rest ← repeatUpTo again roll rounds
        return o :: rest
      else
        return [o]

/-- Rolls once, and again as long as the last outcome calls for it. -/
def repeatWhile (engine : Engine σ) (again : Outcome → Bool)
    (roll : Rolling σ Outcome) : Rolling σ (List Outcome) := do
  let t ← get
  repeatUpTo again roll (engine.remaining t.source + 1)

end Rolling
end DiceNotation
