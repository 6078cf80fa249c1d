import DiceNotation.Node.Bounds
import DiceNotation.Table

/-!
# Rolling dice expressions

A roll draws a number for every die, from left to right, and combines the
readings upwards.  An exploding node rolls each of its members once and again
for as long as the last result calls for it, and adds up all results.  Every
modifier reports its outcome to its tracer when it is complete.
-/

namespace DiceNotation
namespace Node

variable {σ : Type}

/-- Completes the roll of a modifier: its outcome is reported to its tracer. -/
def complete (node : Node) (tracer : Tracer) (r : Reading) :
    Rolling σ Outcome := do
  Rolling.ofEvaluation (node.report tracer .roll r)
  return node.outcome .roll r

/-- The number that results of a member of an exploding node are compared
with: the threshold, or without one the greatest value of the member. -/
def explosionLimit (threshold : Option Int) (member : Node) : Rolling σ Int :=
  match threshold with
  | some t => return t
  | none => Rolling.ofEvaluation member.maximum

/-- Rolls a member of an exploding node as often as its results call for. -/
def rollExploding (engine : Engine σ) (comparator : Comparator)
    (threshold : Option Int) (member : Node) (roll : Rolling σ Outcome) :
    Rolling σ (List Outcome) := do
  let limit ← explosionLimit threshold member
  Rolling.repeatWhile engine (fun o => comparator.triggers limit o.value) roll

/-- The sum of outcomes. -/
def totalOf (outcomes : List Outcome) : Reading :=
  Reading.total (outcomes.map Outcome.toReading)

/-- The sum of the outcomes that a selection chooses by value. -/
def totalChosen (selection : Selection) (threshold : Nat)
    (outcomes : List Outcome) : Reading :=
  Reading.total
    ((selection.choose threshold (outcomes.map fun o => o.value)).map
      Reading.ofValue)

mutual

/-- Rolls the node. -/
def roll (engine : Engine σ) : Node → Rolling σ Outcome
  | die id d =>
      Rolling.settle id do
        let n ← Rolling.draw engine d.range.1 d.range.2
        return (die id d).outcome .roll (Reading.ofValue (d.face n))
  | pool id items =>
      Rolling.settle id do
        let outcomes ← rollEach engine items
        return (pool id items).outcome .roll (totalOf outcomes)
  | arithmetic id tracer op operand inner =>
      Rolling.settle id do
        let o ← roll engine inner
        complete (arithmetic id tracer op operand inner) tracer
          (o.toReading.operate op operand)
  | dropKeep id tracer selection threshold (pool poolId items) =>
      Rolling.settle id do
        let outcomes ← rollEach engine items
        complete (dropKeep id tracer selection threshold (pool poolId items))
          tracer (totalChosen selection threshold outcomes)
  | dropKeep id tracer selection threshold inner =>
      Rolling.settle id do
        let o ← roll engine inner
        complete (dropKeep id tracer selection threshold inner) tracer
          (totalChosen selection threshold [o])
  | explode id tracer comparator threshold (pool poolId items) =>
      Rolling.settle id do
        let outcomes ← explodeEach engine comparator threshold items
        complete (explode id tracer comparator threshold (pool poolId items))
          tracer (totalOf outcomes)
  | explode id tracer comparator threshold inner =>
      Rolling.settle id do
        let outcomes ← rollExploding engine comparator threshold inner
          (roll engine inner)
        complete (explode id tracer comparator threshold inner) tracer
          (totalOf outcomes)
termination_by structural node => node

/-- Rolls nodes once each, from left to right. -/
def rollEach (engine : Engine σ) : List Node → Rolling σ (List Outcome)
  | [] => return []
  | node :: rest => do
      let o ← roll engine node
      let outcomes ← rollEach engine rest
      return o :: outcomes
termination_by structural nodes => nodes

/-- Rolls nodes from left to right, each as often as its results call for. -/
def explodeEach (engine : Engine σ) (comparator : Comparator)
    (threshold : Option Int) : List Node → Rolling σ (List Outcome)
  | [] => return []
  | node :: rest => do
      let outcomes ← rollExploding engine comparator threshold node
        (roll engine node)
      let others ← explodeEach engine comparator threshold rest
      return outcomes ++ others
termination_by structural nodes => nodes

end

/-- A selection rolls the members of its inner node, whatever that node is. -/
theorem roll_dropKeep
    (engine : Engine σ) (node : NodeId) (tracer : Tracer)
    (selection : Selection) (threshold : Nat) (inner : Node) :
    roll engine (dropKeep node tracer selection threshold inner) =
      Rolling.settle node (do
        let outcomes ← rollEach engine inner.members
        complete (dropKeep node tracer selection threshold inner) tracer
          (totalChosen selection threshold outcomes)) := by
  cases inner <;> simp [roll, rollEach, members]

/-- An explosion rolls the members of its inner node one by one, whatever that
node is. -/
theorem roll_explode
    (engine : Engine σ) (node : NodeId) (tracer : Tracer)
    (comparator : Comparator) (threshold : Option Int) (inner : Node) :
    roll engine (explode node tracer comparator threshold inner) =
      Rolling.settle node (do
        let outcomes ← explodeEach engine comparator threshold inner.members
        complete (explode node tracer comparator threshold inner) tracer
          (totalOf outcomes)) := by
  cases inner <;> simp [roll, explodeEach, members]

end Node
end DiceNotation
