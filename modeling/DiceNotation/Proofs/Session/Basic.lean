import DiceNotation.Node.Roll
import DiceNotation.Parse.Expression

/-!
# Sessions

A session is what a client does with dice expressions over time: it builds
nodes from nodes that it built before, one node at a time, and evaluates them
in any order and as often as it likes.  A node can become a part of several
other nodes.  What is refused or broken off does not end the session.
-/

namespace DiceNotation
namespace Session

/-! ## Steps of clients -/

/-- The ways to build a node.  Nodes are named by their places in the order in
which they were built, and a place without a node stands for a missing node.
Operators, selections and comparators may be given by their codes. -/
inductive Construction where
  | sided (sides : Int)
  | custom (faces : List Int)
  | fudge
  | pool (items : List Nat)
  | repeated (item : Nat) (count : Int)
  | arithmetic (inner : Nat) (op : Operator ⊕ Text) (operand : Int)
      (tracer : Tracer)
  | dropKeep (inner : Nat) (selection : Selection ⊕ Text) (threshold : Int)
      (tracer : Tracer)
  | explode (inner : Nat) (comparator : Comparator ⊕ Text)
      (threshold : Option Int) (tracer : Tracer)
  | wrapInPool (inner : Nat)
  | child (node index : Nat)
  | copy (node : Nat)
  | retrace (node : Nat) (tracer : Tracer)
  | parse (tracer : Tracer) (text : Text)

/-- The ways to evaluate a node, or to look at it. -/
inductive Query where
  | roll
  | bound (e : Extreme)
  | hasExactBounds
  | render
  | binding
  | trace

/-- A step of a client: it builds a node, asks for one, or seats another engine
state at the table. -/
inductive Step (σ : Type) where
  | build (construction : Construction)
  | ask (node : Nat) (query : Query)
  | seat (source : σ)

/-- What a client is answered. -/
inductive Answer where
  | done
  | absent
  | refused (e : Error)
  | rolled (o : Outcome)
  | brokenOff (a : Abort)
  | value (n : Int)
  | text (s : Text)
  | flag (b : Bool)
  | binding (b : Binding)
  deriving DecidableEq

end Session

/-- The nodes that a client has built, oldest first, and the table at which it
rolls them. -/
structure Session (σ : Type) where
  nodes : List Node
  table : Table σ

namespace Session

variable {σ : Type}

/-- The session before the first step. -/
def start (source : σ) : Session σ :=
  ⟨[], Memory.empty, source, #[]⟩

/-! ## Answers -/

/-- Builds a node from nodes; nothing if there is no such node to begin with. -/
def Construction.build (nodes : List Node) :
    Construction → Building (Option Node)
  | sided sides => do
      return some (← Build.die (← ofExcept (Die.ofSides sides)))
  | custom faces => do
      return some (← Build.die (← ofExcept (Die.ofFaces faces)))
  | fudge => do return some (← Build.die .fudge)
  | pool items => do return some (← Build.pool (items.map fun i => nodes[i]?))
  | repeated item count =>
      match nodes[item]? with
      | none => return none
      | some item => do return some (← Build.repeated item count)
  | arithmetic inner op operand tracer => do
      let op ← ofExcept (op.elim .ok Operator.ofCode)
      return some (← Build.arithmetic nodes[inner]? op operand tracer)
  | dropKeep inner selection threshold tracer => do
      let selection ← ofExcept (selection.elim .ok Selection.ofCode)
      return some (← Build.dropKeep nodes[inner]? selection threshold tracer)
  | explode inner comparator threshold tracer => do
      let comparator ← ofExcept (comparator.elim .ok Comparator.ofCode)
      return some (← Build.explode nodes[inner]? comparator threshold tracer)
  | wrapInPool inner => do return some (← Build.wrapInPool nodes[inner]?)
  | child node index =>
      return nodes[node]?.bind fun node => node.children[index]?
  | copy node =>
      match nodes[node]? with
      | none => return none
      | some node => do return some (← (Build.copy node : Evaluation Node))
  | retrace node tracer =>
      match nodes[node]? with
      | none => return none
      | some node => (Build.retrace node tracer : Evaluation (Option Node))
  | parse tracer text => do return some (← DiceNotation.parse tracer text)

/-- Evaluates in the memory of the session. -/
def evaluate {α : Type} (x : Evaluation α) : StateM (Session σ) α := fun s =>
  let (a, memory) := x.run s.table.memory
  (a, { s with table := { s.table with memory } })

/-- Rolls at the table of the session. -/
def atTable {α : Type} (x : Rolling σ α) :
    StateM (Session σ) (Except Abort α) := fun s =>
  let (result, table) := (ExceptT.run x).run s.table
  (result, { s with table })

/-- Answers a construction.  A node that is built gets the next place. -/
def construct (construction : Construction) : StateM (Session σ) Answer := do
  match ← evaluate (ExceptT.run (construction.build (← get).nodes)) with
  | .error e => return .refused e
  | .ok none => return .absent
  | .ok (some node) =>
      modify fun s => { s with nodes := s.nodes ++ [node] }
      return .done

/-- Answers a query about a node. -/
def answer (engine : Engine σ) (node : Node) : Query → StateM (Session σ) Answer
  | .roll => do
      match ← atTable (node.roll engine) with
      | .ok o => return .rolled o
      | .error a => return .brokenOff a
  | .bound e => do return .value (← evaluate (node.bound e))
  | .hasExactBounds => do return .flag (← evaluate node.hasExactBounds)
  | .render => return .text node.render
  | .binding => return .binding node.binding
  | .trace => do return .text ((← get).table.memory.trace node.id)

/-- Answers a step. -/
def perform (engine : Engine σ) : Step σ → StateM (Session σ) Answer
  | .build construction => construct construction
  | .ask node query => do
      match (← get).nodes[node]? with
      | none => return .absent
      | some node => answer engine node query
  | .seat source => do
      modify fun s => { s with table := { s.table with source } }
      return .done

/-- Answers steps, one after the other. -/
def play (engine : Engine σ) : List (Step σ) → StateM (Session σ) (List Answer)
  | [] => return []
  | step :: rest => do
      let first ← perform engine step
      let others ← play engine rest
      return first :: others

end Session
end DiceNotation
