import DiceNotation.Comparator
import DiceNotation.Die
import DiceNotation.Selection
import DiceNotation.Tracer

/-!
# Nodes of dice expressions

A dice expression is a tree of nodes: dice, pools that sum their items, and
modifiers of one inner node.  Every node has an identity, under which the
memory keeps its last trace.  A node that occurs at several places of a tree,
or in several trees, has the same identity everywhere.
-/

namespace DiceNotation

/-- A node of a dice expression. -/
inductive Node where
  | die (id : NodeId) (die : Die)
  | pool (id : NodeId) (items : List Node)
  | arithmetic (id : NodeId) (tracer : Tracer) (op : Operator) (operand : Nat)
      (inner : Node)
  | dropKeep (id : NodeId) (tracer : Tracer) (selection : Selection)
      (threshold : Nat) (inner : Node)
  | explode (id : NodeId) (tracer : Tracer) (comparator : Comparator)
      (threshold : Option Int) (inner : Node)

namespace Node

/-- The identity of the node. -/
def id : Node → NodeId
  | die id _ => id
  | pool id _ => id
  | arithmetic id _ _ _ _ => id
  | dropKeep id _ _ _ _ => id
  | explode id _ _ _ _ => id

/-- The same node under another identity; its children stay the same. -/
def withId (id : NodeId) : Node → Node
  | die _ d => die id d
  | pool _ items => pool id items
  | arithmetic _ tracer op operand inner =>
      arithmetic id tracer op operand inner
  | dropKeep _ tracer selection threshold inner =>
      dropKeep id tracer selection threshold inner
  | explode _ tracer comparator threshold inner =>
      explode id tracer comparator threshold inner

/-- The same modifier under another identity and with another tracer. -/
def retraced? (id : NodeId) (tracer : Tracer) : Node → Option Node
  | die _ _ => none
  | pool _ _ => none
  | arithmetic _ _ op operand inner =>
      some (arithmetic id tracer op operand inner)
  | dropKeep _ _ selection threshold inner =>
      some (dropKeep id tracer selection threshold inner)
  | explode _ _ comparator threshold inner =>
      some (explode id tracer comparator threshold inner)

/-- The children of the node, from left to right. -/
def children : Node → List Node
  | die _ _ => []
  | pool _ items => items
  | arithmetic _ _ _ _ inner => [inner]
  | dropKeep _ _ _ _ inner => [inner]
  | explode _ _ _ _ inner => [inner]

/-- The die that the node is, if it is one. -/
def die? : Node → Option Die
  | die _ d => some d
  | _ => none

/-- The nodes that a modifier filters or explodes one by one: the items of a
pool, or else the node alone. -/
def members : Node → List Node
  | pool _ items => items
  | node => [node]

/-- The faces of a die that lists them, and none for any other node. -/
def listedFaces : Node → List Int
  | die _ d => d.listedFaces
  | _ => []

/-- The number of arithmetic modifiers stacked directly on one another. -/
def chainLength : Node → Nat
  | arithmetic _ _ _ _ inner => inner.chainLength + 1
  | _ => 0

end Node
end DiceNotation
