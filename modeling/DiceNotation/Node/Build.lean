import DiceNotation.Error
import DiceNotation.Node.Bounds

/-!
# Building dice expressions

Nodes are built one at a time, from inner nodes that were built before, and
building is refused when the parameters make no sense.  A node that is built
gets an identity of its own.

An explosion is only accepted if it is sure to stop: the members of its inner
node must have exact bounds, and neither the whole node nor a member may call
for another roll whatever it shows.  Finding this out evaluates bounds, which
leaves traces and reports outcomes whether or not the explosion is accepted.
-/

namespace DiceNotation

/-- A computation that builds something or is refused.  What it did to the
memory stays in either case. -/
abbrev Building := ExceptT Error Evaluation

/-- The operator that a code stands for. -/
def Operator.ofCode (code : Text) : Except Error Operator :=
  match Operator.ofText? code with
  | some op => .ok op
  | none => .error (.unknownOperator code)

/-- The selection that a code stands for, in any case. -/
def Selection.ofCode (code : Text) : Except Error Selection :=
  match Selection.ofText? code with
  | some selection => .ok selection
  | none => .error (.unknownSelection code)

/-- The comparator that a code stands for. -/
def Comparator.ofCode (code : Text) : Except Error Comparator :=
  match Comparator.ofText? code with
  | some comparator => .ok comparator
  | none => .error (.unknownComparator code)

namespace Die

/-- The die with a number of sides, at least two. -/
def ofSides (sides : Int) : Except Error Die :=
  if sides < 2 then .error (.tooFewSides sides) else .ok (.sided sides.toNat)

/-- The die with the given faces, of which there is at least one and not too
many. -/
def ofFaces (faces : List Int) : Except Error Die :=
  if faces = [] then
    .error .noFaces
  else if mostFaces < faces.length then
    .error .tooManyFaces
  else
    .ok (.custom faces)

end Die

namespace Build

/-- A fresh identity. -/
def newNode : Building NodeId :=
  (Memory.newNode : Evaluation NodeId)

/-- A node that is a die. -/
def die (d : Die) : Building Node := do
  return .die (← newNode) d

/-- A pool of items, none of which may be missing. -/
def pool (items : List (Option Node)) : Building Node := do
  match items.mapM id with
  | none => throw .missingItem
  | some items => return .pool (← newNode) items

/-- A copy of a node, with the same children and, so far, the same trace. -/
def copy (node : Node) : Evaluation Node := do
  return node.withId (← Memory.copyNode node.id)

/-- As many copies of a node as said, in order. -/
def copies (node : Node) : Nat → Evaluation (List Node)
  | 0 => return []
  | n + 1 => do
      let first ← copy node
      let rest ← copies node n
      return first :: rest

/-- A pool of copies of a node; their number is bounded. -/
def repeated (node : Node) (count : Int) : Building Node := do
  if count < 1 then
    throw (.poolTooSmall count)
  else if mostCopies < count then
    throw (.poolTooLarge count)
  else
    let items ← (copies node count.toNat : Evaluation (List Node))
    return .pool (← newNode) items

/-- An operator with an operand on an inner node. -/
def arithmetic (inner : Option Node) (op : Operator) (operand : Int)
    (tracer : Tracer) : Building Node := do
  match inner with
  | none => throw .missingOperandNode
  | some inner =>
      if operand < 0 then
        throw (.negativeOperand operand)
      else if op = .divide ∧ operand = 0 then
        throw .divisionByZero
      else
        return .arithmetic (← newNode) tracer op operand.toNat inner

/-- A selection by rank among the members of an inner node. -/
def dropKeep (inner : Option Node) (selection : Selection) (threshold : Int)
    (tracer : Tracer) : Building Node := do
  match inner with
  | none => throw .missingInner
  | some inner =>
      if inner.members = [] then
        throw .emptySelection
      else if threshold < 0 then
        throw (.negativeThreshold threshold)
      else if inner.members.length < threshold then
        throw (.tooManyChosen threshold.toNat inner.members.length inner.render)
      else
        return .dropKeep (← newNode) tracer selection threshold.toNat inner

/-- Refuses an explosion unless all members have exact bounds. -/
def requireExactBounds : List Node → Building Unit
  | [] => return ()
  | member :: rest => do
      if ← (member.hasExactBounds : Evaluation Bool) then
        requireExactBounds rest
      else
        throw (.unprovenExplosion member.render)

/-- Refuses an explosion of a node, written as `text`, that calls for another
roll whatever the node shows.  Without a threshold, the node is compared with
its own greatest value.

The order in which the two bounds are asked for is left open.  The least one
first is one permitted order, and all results hold for the other one too. -/
def requireEnd (comparator : Comparator) (threshold : Option Int) (node : Node)
    (text : Text) : Building Unit := do
  let low ← (node.minimum : Evaluation Int)
  let high ← (node.maximum : Evaluation Int)
  let threshold := threshold.getD high
  if comparator.isEndless threshold low high then
    throw (.endlessExplosion text comparator threshold)

/-- Refuses an explosion if one of the members explodes without end. -/
def requireEnds (comparator : Comparator) (threshold : Option Int) :
    List Node → Building Unit
  | [] => return ()
  | member :: rest => do
      requireEnd comparator threshold member member.render
      requireEnds comparator threshold rest

/-- An explosion of the members of an inner node. -/
def explode (inner : Option Node) (comparator : Comparator)
    (threshold : Option Int) (tracer : Tracer) : Building Node := do
  match inner with
  | none => throw .missingInner
  | some inner =>
      if inner.members = [] then
        throw .emptyExplosion
      else
        let node := Node.explode (← newNode) tracer comparator threshold inner
        requireExactBounds inner.members
        requireEnd comparator threshold inner node.render
        requireEnds comparator threshold inner.members
        return node

/-- A node as a pool: the node itself if it is one, or else a pool with the
node as its only item. -/
def wrapInPool (inner : Option Node) : Building Node := do
  match inner with
  | none => throw .missingInner
  | some (.pool id items) => return .pool id items
  | some node => return .pool (← newNode) [node]

/-- A modifier with another tracer, as a new node; nothing for a node that is
no modifier. -/
def retrace (node : Node) (tracer : Tracer) : Evaluation (Option Node) := do
  return node.retraced? (← Memory.newNode) tracer

end Build
end DiceNotation
