import Std.Data.HashMap
import DiceNotation.Tracer

/-!
# Memory

Nodes do not change once they are built.  What evaluations leave behind is the
memory: the trace of every node's last evaluation and the journal of the
tracers.  It also hands out the identities of new nodes.

A node's trace is emptied when an evaluation of the node starts and set when
it ends, so an evaluation that is broken off leaves it empty.
-/

namespace DiceNotation

/-- The last traces of nodes, empty for nodes without one. -/
structure Traces where
  table : Std.HashMap NodeId Text

namespace Traces

/-- No traces. -/
def none : Traces := ⟨∅⟩

/-- The trace of a node. -/
def get (t : Traces) (node : NodeId) : Text :=
  t.table.getD node []

/-- Changes the trace of a node. -/
def set (t : Traces) (node : NodeId) (trace : Text) : Traces :=
  ⟨t.table.insert node trace⟩

@[simp]
theorem get_none (node : NodeId) : none.get node = [] := by
  simp [get, none]

theorem get_set (t : Traces) (a b : NodeId) (trace : Text) :
    (t.set a trace).get b = if a = b then trace else t.get b := by
  simp only [get, set, Std.HashMap.getD_insert, beq_iff_eq]

@[simp]
theorem get_set_self (t : Traces) (a : NodeId) (trace : Text) :
    (t.set a trace).get a = trace := by
  simp [get_set]

theorem get_set_of_ne
    (t : Traces)
    {a b : NodeId}
    (trace : Text)
    (h : a ≠ b) :
    (t.set a trace).get b = t.get b := by
  simp [get_set, h]

end Traces

/-- What evaluations leave behind. -/
structure Memory where
  fresh : NodeId
  traces : Traces
  journal : Journal

/-- A computation that may change the memory and cannot fail. -/
abbrev Evaluation := StateM Memory

namespace Memory

/-- The memory before the first node is built. -/
def empty : Memory := ⟨0, Traces.none, #[]⟩

/-- The last trace of a node. -/
def trace (m : Memory) (node : NodeId) : Text :=
  m.traces.get node

/-- Changes the last trace of a node. -/
def setTrace (node : NodeId) (trace : Text) : Evaluation Unit :=
  modify fun m => { m with traces := m.traces.set node trace }

/-- Hands out an identity that no node has. -/
def newNode : Evaluation NodeId :=
  modifyGet fun m => (m.fresh, { m with fresh := m.fresh + 1 })

/-- Hands out an identity for a copy of a node, which starts with the trace of
that node. -/
def copyNode (node : NodeId) : Evaluation NodeId := do
  let m ← get
  let copy ← newNode
  setTrace copy (m.trace node)
  return copy

/-- Tells a tracer about an outcome. -/
def notify (tracer : Tracer) (o : Outcome) : Evaluation Unit :=
  modify fun m => { m with journal := tracer.notify o m.journal }

/-- Evaluates a node: its trace is emptied first and set in the end. -/
def settle (node : NodeId) (evaluate : Evaluation Reading) :
    Evaluation Int := do
  setTrace node []
  let r ← evaluate
  setTrace node r.trace
  return r.value

@[simp]
theorem run_setTrace (node : NodeId) (trace : Text) (m : Memory) :
    (setTrace node trace).run m =
      ((), { m with traces := m.traces.set node trace }) :=
  rfl

@[simp]
theorem run_newNode (m : Memory) :
    newNode.run m = (m.fresh, { m with fresh := m.fresh + 1 }) :=
  rfl

@[simp]
theorem run_notify (tracer : Tracer) (o : Outcome) (m : Memory) :
    (notify tracer o).run m =
      ((), { m with journal := tracer.notify o m.journal }) :=
  rfl

/-- An evaluation leaves its trace on the node and gives its value. -/
theorem run_settle (node : NodeId)
    (evaluate : Evaluation Reading) (m : Memory) :
    (settle node evaluate).run m =
      let (r, after) := evaluate.run { m with traces := m.traces.set node [] }
      (r.value, { after with traces := after.traces.set node r.trace }) :=
  rfl

end Memory
end DiceNotation
