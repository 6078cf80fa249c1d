import DiceNotation.Proofs.Node.Account
import DiceNotation.Proofs.Roll.Realizes

/-!
# Calls

A call is an evaluation of a node that was started: a roll or one of the two
bounds.  It may have been broken off, and it may have started other calls in
turn.  Below are the calls that every way to evaluate a node starts.  Those of
bounds are always the same, and those of rolls depend on what the engine
answers.
-/

namespace DiceNotation

/-- An evaluation of a node that was started, with what it came to unless it
was broken off, and the calls that it started in turn, in their order. -/
structure Call where
  node : Node
  method : Method
  reading : Option Reading
  inner : List Call

namespace Call

/-- The trace that the call leaves on its node: none if it was broken off. -/
def trace (call : Call) : Text :=
  call.reading.elim [] Reading.trace

mutual

/-- The call and all calls within it, in the order in which they were
started. -/
def started : Call → List Call
  | ⟨node, method, reading, inner⟩ =>
      ⟨node, method, reading, inner⟩ :: allStarted inner

/-- The calls and all calls within them, in the order in which they were
started. -/
def allStarted : List Call → List Call
  | [] => []
  | call :: rest => started call ++ allStarted rest

end

/-- The call of a node that was started last. -/
def last? (calls : List Call) (node : NodeId) : Option Call :=
  ((allStarted calls).filter fun call => call.node.id = node).getLast?

/-- The call of a bound, which is never broken off. -/
def ofBound (node : Node) (e : Extreme) (inner : List Call) : Call :=
  ⟨node, e.method, some (node.account e), inner⟩

end Call

namespace Rolling

variable {σ α : Type}

/-- The calls that follow a computation at a table, unless it is broken off. -/
def followUp (x : Rolling σ α) (next : α → Table σ → List Call) (t : Table σ) :
    List Call :=
  match run x t with
  | (.ok a, u) => next a u
  | (.error _, _) => []

@[simp]
theorem followUp_nil (x : Rolling σ α) (t : Table σ) :
    followUp x (fun _ _ => []) t = [] := by
  unfold followUp
  split <;> rfl

end Rolling

namespace Node

open Rolling

variable {σ : Type}

/-! ## Calls of bounds -/

mutual

/-- Asking for a bound as a call. -/
def boundCall : Node → Extreme → Call
  | die id d, e => .ofBound (die id d) e []
  | pool id items, e => .ofBound (pool id items) e (boundCalls items e)
  | arithmetic id tracer op operand inner, e =>
      .ofBound (arithmetic id tracer op operand inner) e
        [boundCall inner .least, boundCall inner .greatest]
  | dropKeep id tracer selection threshold (pool poolId items), e =>
      .ofBound (dropKeep id tracer selection threshold (pool poolId items)) e
        (boundCalls items e)
  | dropKeep id tracer selection threshold inner, e =>
      .ofBound (dropKeep id tracer selection threshold inner) e
        [boundCall inner e]
  | explode id tracer comparator threshold inner, .greatest =>
      .ofBound (explode id tracer comparator threshold inner) .greatest []
  | explode id tracer comparator threshold (pool poolId items), .least =>
      .ofBound (explode id tracer comparator threshold (pool poolId items))
        .least (boundCalls items .least)
  | explode id tracer comparator threshold inner, .least =>
      .ofBound (explode id tracer comparator threshold inner) .least
        [boundCall inner .least]
termination_by structural node => node

/-- Asking for the bounds of nodes, from left to right. -/
def boundCalls : List Node → Extreme → List Call
  | [], _ => []
  | node :: rest, e => boundCall node e :: boundCalls rest e
termination_by structural nodes => nodes

end

mutual

/-- The calls that are started to find out whether a node has exact bounds. -/
def exactCalls : Node → List Call
  | die _ _ => []
  | pool _ items => allExactCalls items
  | dropKeep _ _ _ _ inner => exactCalls inner
  | explode _ _ _ _ _ => []
  | arithmetic _ _ op operand inner =>
      exactCalls inner ++
        if !inner.isExact then
          []
        else if !op.isEvenPower operand || !inner.listedFaces.isEmpty then
          []
        else
          boundCall inner .least ::
            if 0 ≤ inner.extreme .least then [] else [boundCall inner .greatest]
termination_by structural node => node

/-- The calls that are started to find out whether all nodes have exact
bounds. -/
def allExactCalls : List Node → List Call
  | [] => []
  | node :: rest =>
      exactCalls node ++ if node.isExact then allExactCalls rest else []
termination_by structural nodes => nodes

end

/-- The calls of both bounds of a node, the least one first as in
`Build.requireEnd`.  This is one permitted order: with the other one in both
places, the results hold just as well. -/
def endCalls (node : Node) : List Call :=
  [boundCall node .least, boundCall node .greatest]

/-- The calls that are started to find out whether a member explodes without
end. -/
def memberCalls (comparator : Comparator) (threshold : Option Int) :
    List Node → List Call
  | [] => []
  | member :: rest =>
      endCalls member ++
        if comparator.isEndless (member.limit threshold) (member.extreme .least)
            (member.extreme .greatest) then
          []
        else
          memberCalls comparator threshold rest

/-- The calls that are started when an explosion of a node is built, whether or
not it is accepted. -/
def checkCalls (comparator : Comparator) (threshold : Option Int)
    (inner : Node) : List Call :=
  if inner.members = [] then
    []
  else
    allExactCalls inner.members ++
      if inner.members.all isExact then
        endCalls inner ++
          if comparator.isEndless (inner.limit threshold) (inner.extreme .least)
              (inner.extreme .greatest) then
            []
          else
            memberCalls comparator threshold inner.members
      else
        []

mutual

/-- The calls that are started when all nodes of a tree are built, children
first. -/
def buildCalls : Node → List Call
  | die _ _ => []
  | pool _ items => allBuildCalls items
  | arithmetic _ _ _ _ inner => buildCalls inner
  | dropKeep _ _ _ _ inner => buildCalls inner
  | explode _ _ comparator threshold inner =>
      buildCalls inner ++ checkCalls comparator threshold inner
termination_by structural node => node

/-- The calls that are started when nodes and all that they consist of are
built, one after another. -/
def allBuildCalls : List Node → List Call
  | [] => []
  | node :: rest => buildCalls node ++ allBuildCalls rest
termination_by structural nodes => nodes

end

/-! ## Calls of rolls -/

/-- The table when the roll of a node has just been started. -/
def opened (node : Node) (t : Table σ) : Table σ :=
  { t with
    memory := { t.memory with traces := t.memory.traces.set node.id [] } }

/-- Rolling a node at a table as a call. -/
def ofRoll (engine : Engine σ) (node : Node) (inner : Table σ → List Call)
    (t : Table σ) : Call :=
  ⟨node, .roll, (run (node.roll engine) t).1.toOption.map Outcome.toReading,
    inner (node.opened t)⟩

/-- The calls of a member that is rolled as often as its results call for, in
at most the given number of rounds. -/
def roundCalls (again : Outcome → Bool) (roll : Rolling σ Outcome)
    (call : Table σ → Call) : Nat → Table σ → List Call
  | 0, _ => []
  | rounds + 1, t =>
      call t :: followUp roll (fun o u =>
        if again o then roundCalls again roll call rounds u else []) t

/-- The calls of an exploding member: first its greatest value, if that is the
threshold, and then its rolls. -/
def burstCalls (engine : Engine σ) (comparator : Comparator)
    (threshold : Option Int) (member : Node) (call : Table σ → Call)
    (t : Table σ) : List Call :=
  (if threshold.isNone then [boundCall member .greatest] else []) ++
    followUp (explosionLimit threshold member) (fun limit u =>
      roundCalls (fun o => comparator.triggers limit o.value)
        (member.roll engine) call (engine.remaining u.source + 1) u) t

mutual

/-- Rolling the node at a table as a call. -/
def rollCall (engine : Engine σ) : Node → Table σ → Call
  | die id d => ofRoll engine (die id d) fun _ => []
  | pool id items => ofRoll engine (pool id items) (eachCalls engine items)
  | arithmetic id tracer op operand inner =>
      ofRoll engine (arithmetic id tracer op operand inner)
        fun t => [rollCall engine inner t]
  | dropKeep id tracer selection threshold (pool poolId items) =>
      ofRoll engine (dropKeep id tracer selection threshold (pool poolId items))
        (eachCalls engine items)
  | dropKeep id tracer selection threshold inner =>
      ofRoll engine (dropKeep id tracer selection threshold inner)
        fun t => [rollCall engine inner t]
  | explode id tracer comparator threshold (pool poolId items) =>
      ofRoll engine (explode id tracer comparator threshold (pool poolId items))
        (explosionCalls engine comparator threshold items)
  | explode id tracer comparator threshold inner =>
      ofRoll engine (explode id tracer comparator threshold inner)
        (burstCalls engine comparator threshold inner (rollCall engine inner))
termination_by structural node => node

/-- Rolling nodes once each at a table, from left to right. -/
def eachCalls (engine : Engine σ) : List Node → Table σ → List Call
  | [] => fun _ => []
  | node :: rest => fun t =>
      rollCall engine node t :: followUp (node.roll engine)
        (fun _ => eachCalls engine rest) t
termination_by structural nodes => nodes

/-- Rolling nodes at a table from left to right, each as often as its results
call for. -/
def explosionCalls (engine : Engine σ) (comparator : Comparator)
    (threshold : Option Int) : List Node → Table σ → List Call
  | [] => fun _ => []
  | node :: rest => fun t =>
      burstCalls engine comparator threshold node (rollCall engine node) t ++
        followUp
          (rollExploding engine comparator threshold node (node.roll engine))
          (fun _ => explosionCalls engine comparator threshold rest) t
termination_by structural nodes => nodes

end

/-! ## Calls of modifiers -/

theorem boundCall_dropKeep
    (id : NodeId) (tracer : Tracer) (selection : Selection) (threshold : Nat)
    (inner : Node) (e : Extreme) :
    boundCall (dropKeep id tracer selection threshold inner) e =
      .ofBound (dropKeep id tracer selection threshold inner) e
        (boundCalls inner.members e) := by
  cases inner <;> simp only [boundCall, boundCalls, members]

theorem boundCall_explode_greatest
    (id : NodeId) (tracer : Tracer) (comparator : Comparator)
    (threshold : Option Int) (inner : Node) :
    boundCall (explode id tracer comparator threshold inner) .greatest =
      .ofBound (explode id tracer comparator threshold inner) .greatest [] := by
  cases inner <;> simp only [boundCall]

theorem boundCall_explode_least
    (id : NodeId) (tracer : Tracer) (comparator : Comparator)
    (threshold : Option Int) (inner : Node) :
    boundCall (explode id tracer comparator threshold inner) .least =
      .ofBound (explode id tracer comparator threshold inner) .least
        (boundCalls inner.members .least) := by
  cases inner <;> simp only [boundCall, boundCalls, members]

theorem method_boundCall (node : Node) (e : Extreme) :
    (boundCall node e).method = e.method := by
  cases node with
  | die | pool | arithmetic => simp only [boundCall, Call.ofBound]
  | dropKeep => rw [boundCall_dropKeep, Call.ofBound]
  | explode =>
      cases e with
      | least => rw [boundCall_explode_least, Call.ofBound]
      | greatest => rw [boundCall_explode_greatest, Call.ofBound]

theorem rollCall_dropKeep
    (engine : Engine σ) (id : NodeId) (tracer : Tracer) (selection : Selection)
    (threshold : Nat) (inner : Node) :
    rollCall engine (dropKeep id tracer selection threshold inner) =
      ofRoll engine (dropKeep id tracer selection threshold inner)
        (eachCalls engine inner.members) := by
  cases inner <;> simp [rollCall, eachCalls, members]

theorem rollCall_explode
    (engine : Engine σ) (id : NodeId) (tracer : Tracer)
    (comparator : Comparator) (threshold : Option Int) (inner : Node) :
    rollCall engine (explode id tracer comparator threshold inner) =
      ofRoll engine (explode id tracer comparator threshold inner)
        (explosionCalls engine comparator threshold inner.members) := by
  cases inner <;> simp [rollCall, explosionCalls, members]

end Node
end DiceNotation
