import DiceNotation.Memory
import DiceNotation.Node.Render

/-!
# Bounds of dice expressions

Every node has a least and a greatest value that its rolls are measured
against.  Asking for a bound is an evaluation like a roll: it leaves traces on
the node and on the nodes below it, and it is reported to tracers.

The bounds of some nodes are exact, which means that rolls reach both of them.
-/

namespace DiceNotation

/-- The two ends of the range of a node. -/
inductive Extreme where
  | least
  | greatest
  deriving DecidableEq, Repr

namespace Extreme

/-- The method of evaluation that asks for the end. -/
def method : Extreme → Method
  | least => .minimum
  | greatest => .maximum

end Extreme

/-- The least or the greatest face. -/
def Die.bound (d : Die) : Extreme → Int
  | .least => d.lowest
  | .greatest => d.highest

/-- The operand value at which an operator assumes its least or its greatest
result. -/
def Operator.boundAt (op : Operator) (operand : Nat) (faces : List Int)
    (low high : Int) : Extreme → Int
  | .least => op.leastAt operand faces low high
  | .greatest => op.greatestAt operand low high

namespace Node

/-- Reports a reading of the node to a tracer. -/
def report (node : Node) (tracer : Tracer) (method : Method) (r : Reading) :
    Evaluation Unit :=
  Memory.notify tracer (node.outcome method r)

mutual

/-- The least or the greatest value of the node.  Both bounds of an operand
node are evaluated, whichever bound is asked for.  Any number of explosions may
happen, so the greatest value of an exploding node is the largest value. -/
def bound : Node → Extreme → Evaluation Int
  | die id d, e =>
      Memory.settle id (pure (Reading.ofValue (d.bound e)))
  | pool id items, e =>
      Memory.settle id do
        let values ← boundEach items e
        return Reading.total (values.map Reading.ofValue)
  | arithmetic id tracer op operand inner, e =>
      Memory.settle id do
        let low ← bound inner .least
        let high ← bound inner .greatest
        let start := op.boundAt operand inner.listedFaces low high e
        let r := (Reading.ofValue start).operate op operand
        report (arithmetic id tracer op operand inner) tracer e.method r
        return r
  | dropKeep id tracer selection threshold (pool poolId items), e =>
      Memory.settle id do
        let values ← boundEach items e
        let r := Reading.total
          ((selection.choose threshold values).map Reading.ofValue)
        report (dropKeep id tracer selection threshold (pool poolId items))
          tracer e.method r
        return r
  | dropKeep id tracer selection threshold inner, e =>
      Memory.settle id do
        let value ← bound inner e
        let r := Reading.total
          ((selection.choose threshold [value]).map Reading.ofValue)
        report (dropKeep id tracer selection threshold inner) tracer e.method r
        return r
  | explode id tracer comparator threshold inner, .greatest =>
      Memory.settle id do
        let r := Reading.ofValue Limits.highest
        report (explode id tracer comparator threshold inner) tracer .maximum r
        return r
  | explode id tracer comparator threshold (pool poolId items), .least =>
      Memory.settle id do
        let values ← boundEach items .least
        let r := Reading.total (values.map Reading.ofValue)
        report (explode id tracer comparator threshold (pool poolId items))
          tracer .minimum r
        return r
  | explode id tracer comparator threshold inner, .least =>
      Memory.settle id do
        let value ← bound inner .least
        let r := Reading.total [Reading.ofValue value]
        report (explode id tracer comparator threshold inner) tracer .minimum r
        return r
termination_by structural node => node

/-- The least or the greatest values of nodes, from left to right. -/
def boundEach : List Node → Extreme → Evaluation (List Int)
  | [], _ => return []
  | node :: rest, e => do
      let value ← bound node e
      let values ← boundEach rest e
      return value :: values
termination_by structural nodes => nodes

end

/-- A selection evaluates the bounds of the members of its inner node, whatever
that node is. -/
theorem bound_dropKeep
    (node : NodeId) (tracer : Tracer) (selection : Selection) (threshold : Nat)
    (inner : Node) (e : Extreme) :
    bound (dropKeep node tracer selection threshold inner) e =
      Memory.settle node (do
        let values ← boundEach inner.members e
        let r := Reading.total
          ((selection.choose threshold values).map Reading.ofValue)
        report (dropKeep node tracer selection threshold inner)
          tracer e.method r
        return r) := by
  cases inner <;> simp [bound, boundEach, members]

/-- An explosion sums the least values of the members of its inner node,
whatever that node is. -/
theorem bound_explode_least
    (node : NodeId) (tracer : Tracer) (comparator : Comparator)
    (threshold : Option Int) (inner : Node) :
    bound (explode node tracer comparator threshold inner) .least =
      Memory.settle node (do
        let values ← boundEach inner.members .least
        let r := Reading.total (values.map Reading.ofValue)
        report (explode node tracer comparator threshold inner)
          tracer .minimum r
        return r) := by
  cases inner <;> simp [bound, boundEach, members]

/-- The least value of the node. -/
def minimum (node : Node) : Evaluation Int :=
  node.bound .least

/-- The greatest value of the node. -/
def maximum (node : Node) : Evaluation Int :=
  node.bound .greatest

mutual

/-- Whether rolls of the node reach its least and its greatest value.  An even
power of a range around zero reaches zero only if the range does, so it is
exact for a die that lists its faces and for a range on one side of zero.
Bounds are evaluated only where the answer hangs on them. -/
def hasExactBounds : Node → Evaluation Bool
  | die _ _ => return true
  | pool _ items => allExactBounds items
  | dropKeep _ _ _ _ inner => hasExactBounds inner
  | explode _ _ _ _ _ => return false
  | arithmetic _ _ op operand inner => do
      if !(← hasExactBounds inner) then
        return false
      else if !op.isEvenPower operand || !inner.listedFaces.isEmpty then
        return true
      else if 0 ≤ (← inner.minimum) then
        return true
      else
        return (← inner.maximum) ≤ 0
termination_by structural node => node

/-- Whether all nodes have exact bounds, asked from left to right up to the
first that has not. -/
def allExactBounds : List Node → Evaluation Bool
  | [] => return true
  | node :: rest => do
      if ← hasExactBounds node then
        allExactBounds rest
      else
        return false
termination_by structural nodes => nodes

end

end Node
end DiceNotation
