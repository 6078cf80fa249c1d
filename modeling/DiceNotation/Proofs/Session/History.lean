import DiceNotation.Proofs.History.Origins
import DiceNotation.Proofs.History.Reading
import DiceNotation.Proofs.History.Rolls
import DiceNotation.Proofs.Session.Basic

/-!
# Last traces

Whatever a client does, the trace of every node tells about its last call.  The
history of a session lists the calls that all steps made and the copies that
were taken, also by steps that were refused or broken off.  One step keeps what
is remembered of the past, and so do all steps of a client.
-/

namespace DiceNotation
namespace Session

open Building Node Rolling

variable {σ : Type}

/-! ## What steps add to the history -/

/-- What a construction adds to the history.  If a text cannot be read, the
nodes that were built on the way are lost together with their traces. -/
def Construction.events (nodes : List Node) (m : Memory) :
    Construction → List Event
  | repeated item count =>
      match nodes[item]? with
      | none => []
      | some item => Build.repeatedEvents item count m
  | explode inner comparator threshold _ =>
      match nodes[inner]?, comparator.elim .ok Comparator.ofCode with
      | some inner, .ok comparator =>
          [.called (inner.checkCalls comparator threshold)]
      | _, _ => []
  | copy node =>
      match nodes[node]? with
      | none => []
      | some node => [.copied m.fresh node.id]
  | parse tracer text =>
      match (DiceNotation.parse tracer text).outcome m with
      | .ok node => [.called node.buildCalls]
      | .error _ => []
  | _ => []

/-- The calls that a query about a node makes. -/
def Query.calls (engine : Engine σ) (node : Node) (t : Table σ) :
    Query → List Call
  | .roll => [node.rollCall engine t]
  | .bound e => [node.boundCall e]
  | .hasExactBounds => node.exactCalls
  | .render => []
  | .binding => []
  | .trace => []

/-- What a step adds to the history. -/
def Step.events (engine : Engine σ) (s : Session σ) : Step σ → List Event
  | build construction => construction.events s.nodes s.table.memory
  | ask node query =>
      match s.nodes[node]? with
      | none => []
      | some node => [.called (query.calls engine node s.table)]
  | seat _ => []

/-- The history of steps that are performed one after the other, the latest
event first. -/
def history (engine : Engine σ) : List (Step σ) → Session σ → List Event
  | [], _ => []
  | step :: rest, s =>
      history engine rest ((perform engine step).run s).2 ++
        step.events engine s

/-! ## Constructions -/

section Constructions

variable {nodes : List Node} {traces : NodeId → Text} {m : Memory}

/-- The node that a construction gave, if it gave one. -/
def given (r : Except Error (Option Node)) : List Node :=
  r.toOption.join.toList

/-- The construction keeps the memory recorded, and what it adds to the history
happened. -/
def Construction.Keeps (nodes : List Node)
    (construction : Construction) : Prop :=
  ∀ ⦃traces m⦄, Recorded 0 nodes traces m →
    Recorded 0 (nodes ++ given ((construction.build nodes).outcome m))
      (tracesAfter traces (construction.events nodes m))
      ((ExceptT.run (construction.build nodes)).run m).2

/-- Without a node, the nodes are the same as before. -/
theorem recorded_none
    (hm : Recorded 0 nodes traces m) :
    Recorded 0 (nodes ++ given (.ok none)) traces m := by
  change Recorded 0 (nodes ++ []) traces m
  rw [List.append_nil]
  exact hm

/-- A constructor that makes these calls, whether or not it is accepted. -/
theorem recorded_some
    {b : Building Node} {made : List Call}
    (hb : Builds b nodes (Makes made))
    (hm : Recorded 0 nodes traces m) :
    Recorded 0 (nodes ++ given ((b >>= fun node => pure (some node)).outcome m))
      (tracesAfter traces [.called made])
      ((ExceptT.run (b >>= fun node => pure (some node))).run m).2 := by
  obtain ⟨new, calls, ⟨hnew, rfl⟩, -, hrecorded⟩ := hb hm
  rw [outcome_bind, Building.run_bind]
  unfold Building.outcome at hnew
  rcases hrun : (ExceptT.run b).run m with ⟨e | node, after⟩
  · rw [hrun] at hnew hrecorded
    rw [hnew] at hrecorded
    exact hrecorded
  · rw [hrun] at hnew hrecorded
    rw [hnew] at hrecorded
    exact hrecorded

/-- A constructor that makes no calls, after a check of its parameters. -/
theorem recorded_checked
    {α : Type} {f : α → Building Node}
    (hf : ∀ a, Builds (f a) nodes (Makes []))
    (r : Except Error α)
    (hm : Recorded 0 nodes traces m) :
    Recorded 0
      (nodes ++ given
        ((do let a ← ofExcept r; return some (← f a) : Building _).outcome m))
      traces
      ((ExceptT.run
        (do let a ← ofExcept r; return some (← f a) : Building _)).run
          m).2 := by
  cases r with
  | error e => exact recorded_none hm
  | ok a => exact recorded_some (hf a) hm

/-- Where a place names a node, this node is there. -/
theorem present_of_getElem?
    (place : Nat) :
    ∀ node ∈ nodes[place]?, Present nodes node :=
  fun _ hnode => present_of_mem (List.mem_of_getElem? hnode)

theorem keeps_parse (tracer : Tracer) (text : Text) :
    (Construction.parse tracer text).Keeps nodes := by
  intro traces m hm
  have hblank : ∀ id, m.fresh ≤ id → m.trace id = [] :=
    fun id hid => (hm.blank id hid).1
  obtain ⟨new, calls, hresult, hpresent, hlater⟩ :=
    leaves_parse [] tracer text (Recorded.of_blank hblank)
  dsimp only [Construction.build, Construction.events]
  rw [outcome_bind, Building.run_bind]
  unfold Building.outcome at hresult ⊢
  rcases hrun :
    (ExceptT.run (DiceNotation.parse tracer text)).run m with ⟨e | node, after⟩
  · rw [hrun] at hlater
    change Recorded 0 (nodes ++ []) traces after
    rw [List.append_nil]
    exact hm.discard hlater hpresent
  · rw [hrun] at hlater hresult
    obtain ⟨hnode, rfl⟩ := hresult node rfl
    apply (hm.merge hlater).mono
    intro other hother
    rcases List.mem_append.mp hother with hother | hother
    · exact present_of_mem (List.mem_append_left _ hother)
    · exact present_append_iff.mpr
        (Or.inr (Present.singleton hnode other hother))

theorem keeps_repeated (item : Nat) (count : Int) :
    (Construction.repeated item count).Keeps nodes := by
  intro traces m hm
  dsimp only [Construction.build, Construction.events]
  cases hitem : nodes[item]? with
  | none => exact recorded_none hm
  | some node =>
      have hpool :=
        Build.recorded_repeated hm (present_of_getElem? item node hitem) count
      dsimp only
      rw [outcome_bind, Building.run_bind]
      unfold Building.outcome at hpool
      rcases hrun :
        (ExceptT.run (Build.repeated node count)).run m with ⟨e | pool, after⟩
      · rw [hrun] at hpool
        exact hpool
      · rw [hrun] at hpool
        exact hpool

theorem keeps_explode
    (inner : Nat) (comparator : Comparator ⊕ Text)
    (threshold : Option Int) (tracer : Tracer) :
    (Construction.explode inner comparator threshold tracer).Keeps nodes := by
  intro traces m hm
  dsimp only [Construction.build, Construction.events]
  cases hinner : nodes[inner]? with
  | none =>
      cases comparator.elim .ok Comparator.ofCode with
      | error e => exact recorded_none hm
      | ok comparator => exact recorded_none hm
  | some node =>
      cases comparator.elim .ok Comparator.ofCode with
      | error e => exact recorded_none hm
      | ok comparator =>
          have hbuilds := Build.builds_explode
            (present_of_getElem? inner node hinner) comparator threshold tracer
          exact recorded_some hbuilds hm

theorem keeps_child (node index : Nat) :
    (Construction.child node index).Keeps nodes := by
  intro traces m hm
  apply hm.mono
  intro child hchild
  rcases List.mem_append.mp hchild with hchild | hchild
  · exact present_of_mem hchild
  · have hfound :
        nodes[node]?.bind (fun node => node.children[index]?) = some child :=
      Option.mem_toList.mp hchild
    obtain ⟨parent, hparent, hindex⟩ := Option.bind_eq_some_iff.mp hfound
    exact (present_of_getElem? node parent hparent).child
      (List.mem_of_getElem? hindex)

theorem keeps_copy (node : Nat) : (Construction.copy node).Keeps nodes := by
  intro traces m hm
  dsimp only [Construction.build, Construction.events]
  cases hnode : nodes[node]? with
  | none => exact recorded_none hm
  | some original => exact hm.copy (present_of_getElem? node original hnode)

theorem keeps_retrace (node : Nat) (tracer : Tracer) :
    (Construction.retrace node tracer).Keeps nodes := by
  intro traces m hm
  dsimp only [Construction.build, Construction.events]
  cases hnode : nodes[node]? with
  | none => exact recorded_none hm
  | some original =>
      have horiginal := present_of_getElem? node original hnode
      have hchildren : ∀ child ∈ original.children, Present nodes child :=
        fun child hchild => horiginal.child hchild
      cases original with
      | die | pool => exact recorded_none hm.numbered
      | arithmetic id _ op operand inner =>
          exact hm.node (.arithmetic m.fresh tracer op operand inner)
            hchildren rfl
      | dropKeep id _ selection threshold inner =>
          exact hm.node (.dropKeep m.fresh tracer selection threshold inner)
            hchildren rfl
      | explode id _ comparator threshold inner =>
          exact hm.node (.explode m.fresh tracer comparator threshold inner)
            hchildren rfl

/-- Every construction keeps the memory recorded. -/
theorem keeps_construction (nodes : List Node) (construction : Construction) :
    construction.Keeps nodes := by
  cases construction with
  | sided sides =>
      exact fun _ _ hm => recorded_checked Build.builds_die
        (Die.ofSides sides) hm
  | custom faces =>
      exact fun _ _ hm => recorded_checked Build.builds_die
        (Die.ofFaces faces) hm
  | fudge => exact fun _ _ hm => recorded_some (Build.builds_die .fudge) hm
  | pool items =>
      intro traces m hm
      have hitems : ∀ node, some node ∈ items.map (fun i => nodes[i]?) →
          Present nodes node := by
        intro node hnode
        obtain ⟨place, -, hplace⟩ := List.mem_map.mp hnode
        exact present_of_getElem? place node hplace
      exact recorded_some (Build.builds_pool hitems) hm
  | repeated item count => exact keeps_repeated item count
  | arithmetic inner op operand tracer =>
      intro traces m hm
      apply recorded_checked _ (op.elim .ok Operator.ofCode) hm
      intro op
      exact Build.builds_arithmetic (present_of_getElem? inner) op
        operand tracer
  | dropKeep inner selection threshold tracer =>
      intro traces m hm
      apply recorded_checked _ (selection.elim .ok Selection.ofCode) hm
      intro selection
      exact Build.builds_dropKeep (present_of_getElem? inner) selection
        threshold tracer
  | explode inner comparator threshold tracer =>
      exact keeps_explode inner comparator threshold tracer
  | wrapInPool inner =>
      intro traces m hm
      exact recorded_some (Build.builds_wrapInPool
        (present_of_getElem? inner)) hm
  | child node index => exact keeps_child node index
  | copy node => exact keeps_copy node
  | retrace node tracer => exact keeps_retrace node tracer
  | parse tracer text => exact keeps_parse tracer text

/-- The calls that a construction makes concern the nodes from which it builds,
or the parts of the node that was read. -/
theorem happen_construction
    (engine : Engine σ) (nodes : List Node)
    (construction : Construction) (m : Memory) :
    Happen engine (nodes ++ given ((construction.build nodes).outcome m))
      (callsIn (construction.events nodes m)) := by
  cases construction with
  | repeated item count =>
      dsimp only [Construction.events]
      cases nodes[item]? with
      | none => exact happen_nil
      | some item =>
          dsimp only [Build.repeatedEvents]
          split
          · rw [callsIn_copyEvents]
            exact happen_nil
          · exact happen_nil
  | explode inner comparator threshold tracer =>
      dsimp only [Construction.events]
      cases hinner : nodes[inner]? with
      | none => exact happen_nil
      | some node =>
          cases comparator.elim .ok Comparator.ofCode with
          | error e => exact happen_nil
          | ok comparator =>
              apply (happen_checkCalls comparator threshold node).mono
              have hpresent := present_of_getElem? inner node hinner
              exact (present_append_iff.mpr (Or.inl hpresent)).singleton
  | copy node =>
      dsimp only [Construction.events]
      cases nodes[node]? with
      | none => exact happen_nil
      | some node => exact happen_nil
  | parse tracer text =>
      dsimp only [Construction.build, Construction.events]
      rw [outcome_bind]
      unfold Building.outcome
      rcases hrun : (ExceptT.run (DiceNotation.parse tracer text)).run
        m with ⟨e | node, after⟩
      · exact happen_nil
      · apply (happen_buildCalls node).mono
        intro other hother
        exact present_append_iff.mpr (Or.inr (present_of_mem hother))
  | _ => exact happen_nil

/-- A construction takes copies under identities that were not handed out
before. -/
theorem copiesAreNew_construction
    {past : List Event}
    (hpast : CopiesAreNew past)
    (hlt : ∀ call ∈ Call.allStarted (callsIn past), call.node.id < m.fresh)
    (nodes : List Node) (construction : Construction) :
    CopiesAreNew (construction.events nodes m ++ past) := by
  cases construction with
  | repeated item count =>
      dsimp only [Construction.events]
      cases nodes[item]? with
      | none => exact hpast
      | some item =>
          dsimp only [Build.repeatedEvents]
          split
          · exact copiesAreNew_copyEvents hpast hlt item.id count.toNat
          · exact hpast
  | explode inner comparator threshold tracer =>
      dsimp only [Construction.events]
      split
      · exact hpast
      · exact hpast
  | copy node =>
      dsimp only [Construction.events]
      cases nodes[node]? with
      | none => exact hpast
      | some node => exact ⟨fun call hcall => (hlt call hcall).ne, hpast⟩
  | parse tracer text =>
      dsimp only [Construction.events]
      split
      · exact hpast
      · exact hpast
  | _ => exact hpast

end Constructions

/-! ## Queries -/

section Queries

variable (engine : Engine σ) {node : Node}

theorem run_answer_roll (node : Node) (s : Session σ) :
    (answer engine node .roll).run s =
      (match (run (node.roll engine) s.table).1 with
        | .ok o => .rolled o
        | .error a => .brokenOff a,
      { s with table := (run (node.roll engine) s.table).2 }) := by
  change (match (run (node.roll engine) s.table).1 with
    | .ok o => pure (.rolled o)
    | .error a => pure (.brokenOff a) : StateM (Session σ) Answer).run
      { s with table := (run (node.roll engine) s.table).2 } = _
  cases (run (node.roll engine) s.table).1 with
  | ok o => rfl
  | error a => rfl

theorem nodes_answer (node : Node) (query : Query) (s : Session σ) :
    ((answer engine node query).run s).2.nodes = s.nodes := by
  cases query with
  | roll => rw [run_answer_roll]
  | _ => rfl

/-- A query makes its calls and leaves everything else in the memory alone. -/
theorem caused_answer
    (hnode : node.Ordered)
    (query : Query) (s : Session σ) :
    Caused [node] (query.calls engine node s.table) s.table.memory
      ((answer engine node query).run s).2.table.memory := by
  cases query with
  | roll =>
      rw [run_answer_roll]
      exact causes_roll engine hnode s.table
  | bound e => exact causes_bound hnode e s.table.memory
  | hasExactBounds => exact causes_hasExactBounds hnode s.table.memory
  | _ => exact .refl _ _

theorem happen_query (node : Node) (query : Query) (t : Table σ) :
    Happen engine [node] (query.calls engine node t) := by
  cases query with
  | roll => exact happen_rollCall node t
  | bound e => exact happen_boundCall node e
  | hasExactBounds => exact happen_exactCalls node
  | _ => exact happen_nil

end Queries

/-! ## Steps -/

theorem run_evaluate {α : Type} (x : Evaluation α) (s : Session σ) :
    (evaluate x).run s =
      ((x.run s.table.memory).1,
        { s with
          table := { s.table with memory := (x.run s.table.memory).2 } }) :=
  rfl

theorem run_construct (construction : Construction) (s : Session σ) :
    ((construct construction).run s).2 =
      ⟨s.nodes ++ given ((construction.build s.nodes).outcome s.table.memory),
        { s.table with
          memory := ((ExceptT.run (construction.build s.nodes)).run
            s.table.memory).2 }⟩ := by
  simp only [construct, StateT.run_bind, StateT.run_get, pure_bind,
    run_evaluate]
  rw [Building.outcome]
  rcases (ExceptT.run (construction.build s.nodes)).run
    s.table.memory with ⟨e | _ | node, after⟩
  · exact congrArg (fun nodes => Session.mk nodes _)
      (List.append_nil s.nodes).symm
  · exact congrArg (fun nodes => Session.mk nodes _)
      (List.append_nil s.nodes).symm
  · rfl

/-- What is known about a session with a past: the traces of all nodes are those
that the past left, all calls happened to nodes that are still there, and
copies were new when they were taken. -/
structure Remembered (engine : Engine σ) (past : List Event)
    (s : Session σ) : Prop where
  recorded : Recorded 0 s.nodes (tracesAfter (fun _ => []) past) s.table.memory
  happen : Happen engine s.nodes (callsIn past)
  copies : CopiesAreNew past

namespace Remembered

variable {engine : Engine σ} {past events : List Event} {s s' : Session σ}

theorem start (engine : Engine σ) (source : σ) :
    Remembered engine [] (start source) where
  recorded :=
    (Recorded.of_blank (m := Memory.empty) fun id _ => Traces.get_none id).congr
      Traces.get_none
  happen := happen_nil
  copies := trivial

theorem extend
    (h : Remembered engine past s)
    (hnodes : ∀ node ∈ s.nodes, Present s'.nodes node)
    (hrecorded :
      Recorded 0 s'.nodes (tracesAfter (tracesAfter (fun _ => []) past) events)
        s'.table.memory)
    (hhappen : Happen engine s'.nodes (callsIn events))
    (hcopies : CopiesAreNew (events ++ past)) :
    Remembered engine (events ++ past) s' where
  recorded := by
    rw [tracesAfter_append]
    exact hrecorded
  happen := by
    rw [callsIn_append]
    exact (h.happen.mono hnodes).append hhappen
  copies := hcopies

/-- The calls of the past concern nodes that were built before. -/
theorem id_lt
    (h : Remembered engine past s) :
    ∀ call ∈ Call.allStarted (callsIn past),
      call.node.id < s.table.memory.fresh :=
  fun call hcall => h.recorded.identified.id_lt_of_present
    (h.happen call hcall).2

theorem construct
    (h : Remembered engine past s)
    (construction : Construction) :
    Remembered engine (construction.events s.nodes s.table.memory ++ past)
      ((Session.construct construction).run s).2 := by
  rw [run_construct]
  apply h.extend
  · exact fun _ hnode => present_of_mem (List.mem_append_left _ hnode)
  · exact keeps_construction s.nodes construction h.recorded
  · exact happen_construction engine s.nodes construction s.table.memory
  · exact copiesAreNew_construction h.copies h.id_lt s.nodes construction

theorem answer
    {node : Node}
    (h : Remembered engine past s)
    (hnode : node ∈ s.nodes)
    (query : Query) :
    Remembered engine ([.called (query.calls engine node s.table)] ++ past)
      ((Session.answer engine node query).run s).2 := by
  have hpresent := (present_of_mem hnode).singleton
  have hordered :=
    h.recorded.identified.ordered_of_present (present_of_mem hnode)
  have hcaused := caused_answer engine hordered query s
  apply h.extend
  · rw [nodes_answer]
    exact fun _ hother => present_of_mem hother
  · rw [nodes_answer]
    exact h.recorded.caused (hcaused.mono hpresent)
  · rw [nodes_answer]
    exact (happen_query engine node query s.table).mono hpresent
  · exact h.copies

/-- One step keeps what is remembered. -/
theorem perform
    (h : Remembered engine past s)
    (step : Step σ) :
    Remembered engine (step.events engine s ++ past)
      ((Session.perform engine step).run s).2 := by
  cases step with
  | build construction => exact h.construct construction
  | seat source => exact ⟨h.recorded, h.happen, h.copies⟩
  | ask place query =>
      have hrun : ((Session.perform engine (.ask place query)).run s).2 =
          ((match s.nodes[place]? with
            | none => pure .absent
            | some node =>
                Session.answer engine node query :
                  StateM (Session σ) Answer).run s).2 :=
        rfl
      rw [hrun]
      dsimp only [Step.events]
      cases hnode : s.nodes[place]? with
      | none => exact h
      | some node => exact h.answer (List.mem_of_getElem? hnode) query

/-- All steps keep what is remembered. -/
theorem play
    (h : Remembered engine past s)
    (steps : List (Step σ)) :
    Remembered engine (history engine steps s ++ past)
      ((Session.play engine steps).run s).2 := by
  induction steps generalizing s past with
  | nil => exact h
  | cons step rest ih =>
      have hrest := ih (h.perform step)
      rw [← List.append_assoc] at hrest
      exact hrest

end Remembered

/-- Whatever a client has done, the trace of every node that it can reach tells
about the last call of this node, on its own or within a call of another node:
it is the trace of the outcome if this call came to its end, and empty if it was
broken off.  A node that was never called has the trace with which it
started. -/
theorem trace_tells_last_call
    (engine : Engine σ) (source : σ) (steps : List (Step σ)) (node : Node)
    (hnode : Present ((play engine steps).run (start source)).2.nodes node) :
    let past := history engine steps (start source)
    let memory := ((play engine steps).run (start source)).2.table.memory
    (∀ call ∈ Call.last? (callsIn past) node.id,
        call.node = node ∧ call.Happened engine ∧
        memory.trace node.id = call.trace) ∧
      (Call.last? (callsIn past) node.id = none →
        memory.trace node.id = initialTrace past node.id) := by
  intro past memory
  have h :
      Remembered engine past ((play engine steps).run (start source)).2 := by
    have hplay := (Remembered.start engine source).play steps
    rw [List.append_nil] at hplay
    exact hplay
  have htrace : memory.trace node.id =
      Call.traceAfter (callsIn past) node.id (initialTrace past node.id) := by
    rw [h.recorded.trace node hnode, tracesAfter_eq_last h.copies]
  rw [Call.traceAfter] at htrace
  constructor
  · intro call hcall
    rw [hcall] at htrace
    obtain ⟨hmem, hid⟩ := List.mem_filter.mp (List.mem_of_getLast? hcall)
    obtain ⟨hhappened, hpresent⟩ := h.happen call hmem
    have hsame :=
      h.recorded.identified.unique _ hpresent _ hnode (of_decide_eq_true hid)
    exact ⟨hsame, hhappened, htrace⟩
  · intro hnone
    rw [hnone] at htrace
    exact htrace

/-- The steps of a client that rolls two dice. -/
def twoDice : List (Step (List Int)) :=
  [.build (.sided 6), .build (.repeated 0 2), .ask 1 .roll]

/-- If there is a number for the first of two dice only, the first die keeps its
trace, and the traces of the second die and of the pool are empty. -/
theorem traces_of_broken_off_pool :
    let memory := ((play Engine.script twoDice).run (start [4])).2.table.memory
    memory.trace 1 = ['4'] ∧ memory.trace 2 = [] ∧ memory.trace 3 = [] := by
  have hnodes : ((play Engine.script twoDice).run (start [4])).2.nodes =
      [.die 0 (.sided 6), .pool 3 [.die 1 (.sided 6), .die 2 (.sided 6)]] := rfl
  have hpool : Present ((play Engine.script twoDice).run (start [4])).2.nodes
      (.pool 3 [.die 1 (.sided 6), .die 2 (.sided 6)]) := by
    rw [hnodes]
    exact present_of_mem (List.mem_cons_of_mem _ (List.mem_singleton_self _))
  have hfirst : Present ((play Engine.script twoDice).run (start [4])).2.nodes
      (.die 1 (.sided 6)) :=
    hpool.child List.mem_cons_self
  have hsecond : Present ((play Engine.script twoDice).run (start [4])).2.nodes
      (.die 2 (.sided 6)) :=
    hpool.child (List.mem_cons_of_mem _ (List.mem_singleton_self _))
  refine ⟨?_, ?_, ?_⟩
  · exact ((trace_tells_last_call Engine.script
      [4] twoDice _ hfirst).1 _ rfl).2.2
  · exact ((trace_tells_last_call Engine.script
      [4] twoDice _ hsecond).1 _ rfl).2.2
  · exact ((trace_tells_last_call Engine.script
      [4] twoDice _ hpool).1 _ rfl).2.2

end Session
end DiceNotation
