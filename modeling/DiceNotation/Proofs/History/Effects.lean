import DiceNotation.Proofs.History.Calls
import DiceNotation.Proofs.Node.Identity
import DiceNotation.Proofs.Roll.Table

/-!
# What calls leave behind

A computation causes calls if these account for everything that it does to
traces: afterwards, every node that had a call has the trace of the last one
that was started, and all other traces are as before.  Bounds, checks and rolls
cause the calls listed for them, whether or not they are broken off.
-/

namespace DiceNotation

namespace Call

/-- The trace of a node after calls, if it had another one before. -/
def traceAfter (calls : List Call) (node : NodeId) (before : Text) : Text :=
  ((last? calls node).map trace).getD before

theorem allStarted_append (calls others : List Call) :
    allStarted (calls ++ others) = allStarted calls ++ allStarted others := by
  induction calls with
  | nil => rfl
  | cons call rest ih =>
      rw [List.cons_append, allStarted, allStarted, ih, List.append_assoc]

theorem allStarted_singleton (call : Call) :
    allStarted [call] = call :: allStarted call.inner := by
  cases call
  rw [allStarted, allStarted, started, List.append_nil]

theorem traceAfter_nil (node : NodeId) (before : Text) :
    traceAfter [] node before = before :=
  rfl

/-- Calls count in the order in which they are made. -/
theorem traceAfter_append (calls others : List Call)
    (node : NodeId) (before : Text) :
    traceAfter (calls ++ others) node before =
      traceAfter others node (traceAfter calls node before) := by
  rw [traceAfter, traceAfter, traceAfter, last?, last?, last?,
    allStarted_append, List.filter_append, List.getLast?_append]
  cases (List.filter (fun call => decide (call.node.id = node))
    (allStarted others)).getLast? with
  | none => rfl
  | some call => rfl

theorem last?_eq_none
    {calls : List Call} {node : NodeId}
    (h : ∀ call ∈ allStarted calls, call.node.id ≠ node) :
    last? calls node = none := by
  rw [last?, List.getLast?_eq_none_iff, List.filter_eq_nil_iff]
  intro call hcall
  rw [decide_eq_true_eq]
  exact h call hcall

theorem traceAfter_of_forall_ne
    {calls : List Call} {node : NodeId}
    (h : ∀ call ∈ allStarted calls, call.node.id ≠ node)
    (before : Text) :
    traceAfter calls node before = before := by
  rw [traceAfter, last?_eq_none h]
  rfl

/-- If a call does not start another call of its own node, it is the last call
of this node itself, and for other nodes the calls within it count. -/
theorem traceAfter_singleton
    {call : Call}
    (h : ∀ other ∈ allStarted call.inner, other.node.id ≠ call.node.id)
    (node : NodeId) (before : Text) :
    traceAfter [call] node before =
      if call.node.id = node then call.trace
        else traceAfter call.inner node before := by
  rw [traceAfter, last?, allStarted_singleton, List.filter_cons]
  by_cases hid : call.node.id = node
  · subst hid
    have hnone : (allStarted call.inner).filter
        (fun other => other.node.id = call.node.id) = [] :=
      List.getLast?_eq_none_iff.mp (last?_eq_none h)
    simp only [decide_true, if_true, hnone, List.getLast?_singleton]
    rfl
  · simp only [hid, decide_false, Bool.false_eq_true, if_false]
    rfl

end Call

/-- Between two memories, exactly these calls were made: they are calls of nodes
that occur in the given ones, no identity was handed out, and every trace is
what the calls leave. -/
structure Caused (nodes : List Node) (calls : List Call)
    (m m' : Memory) : Prop where
  present : ∀ call ∈ Call.allStarted calls, Node.Present nodes call.node
  fresh : m'.fresh = m.fresh
  trace : ∀ node, m'.trace node = Call.traceAfter calls node (m.trace node)

namespace Caused

variable {nodes others : List Node} {calls more : List Call} {m m' m'' : Memory}

theorem none
    (hfresh : m'.fresh = m.fresh)
    (htraces : m'.traces = m.traces) :
    Caused nodes [] m m' where
  present call hcall := absurd hcall List.not_mem_nil
  fresh := hfresh
  trace node := by rw [Memory.trace, htraces, Call.traceAfter_nil, Memory.trace]

theorem refl (nodes : List Node) (m : Memory) : Caused nodes [] m m :=
  none rfl rfl

theorem trans
    (h : Caused nodes calls m m')
    (hmore : Caused nodes more m' m'') :
    Caused nodes (calls ++ more) m m'' where
  present call hcall := by
    rw [Call.allStarted_append, List.mem_append] at hcall
    exact hcall.elim (h.present call) (hmore.present call)
  fresh := hmore.fresh.trans h.fresh
  trace node := by rw [hmore.trace, h.trace, Call.traceAfter_append]

theorem mono
    (h : Caused nodes calls m m')
    (hsub : ∀ node ∈ nodes, Node.Present others node) :
    Caused others calls m m' where
  present call hcall := (h.present call hcall).mono hsub
  fresh := h.fresh
  trace := h.trace

/-- Nodes that occur nowhere in the given ones keep their traces. -/
theorem trace_of_absent
    (h : Caused nodes calls m m')
    {node : NodeId}
    (habsent : ∀ part, Node.Present nodes part → part.id ≠ node) :
    m'.trace node = m.trace node := by
  rw [h.trace]
  exact Call.traceAfter_of_forall_ne
    (fun call hcall => habsent _ (h.present call hcall)) _

variable {node : Node}

/-- A call of a node, from the calls that it starts below the node. -/
theorem call
    (hnode : node.Ordered)
    {opened : Memory}
    (hopened : opened = { m with traces := m.traces.set node.id [] })
    (h : Caused node.children calls opened m')
    {method : Method} {reading : Option Reading}
    (hfresh : m''.fresh = m'.fresh)
    (htrace : ∀ id, m''.trace id =
      if node.id = id then reading.elim [] Reading.trace else m'.trace id) :
    Caused [node] [⟨node, method, reading, calls⟩] m m'' := by
  have hbelow : ∀ other ∈ Call.allStarted calls, other.node.id ≠ node.id :=
    fun other hother => (hnode.id_lt (h.present other hother)).ne
  constructor
  · intro call hcall
    rw [Call.allStarted_singleton] at hcall
    rw [Node.present_singleton_iff, Node.occurs_iff]
    rcases List.mem_cons.mp hcall with rfl | hcall
    · exact Or.inl rfl
    · exact Or.inr (h.present call hcall)
  · rw [hfresh, h.fresh, hopened]
  · intro id
    rw [htrace, Call.traceAfter_singleton hbelow]
    by_cases hid : node.id = id
    · rw [if_pos hid, if_pos hid]
      rfl
    · rw [if_neg hid, if_neg hid, h.trace, hopened, Memory.trace,
        Traces.get_set_of_ne _ _ hid]
      rfl

/-- A call that came to its end has set the trace of its node. -/
theorem ended
    (hnode : node.Ordered)
    (h : Caused node.children calls
      { m with traces := m.traces.set node.id [] } m')
    (method : Method) (r : Reading) :
    Caused [node] [⟨node, method, some r, calls⟩] m
      { m' with traces := m'.traces.set node.id r.trace } :=
  h.call hnode rfl rfl fun id => Traces.get_set m'.traces node.id id r.trace

/-- A call that was broken off leaves the trace of its node empty. -/
theorem brokenOff
    (hnode : node.Ordered)
    (h : Caused node.children calls
      { m with traces := m.traces.set node.id [] } m')
    (method : Method) :
    Caused [node] [⟨node, method, Option.none, calls⟩] m m' := by
  refine h.call hnode rfl rfl ?_
  intro id
  by_cases hid : node.id = id
  · subst hid
    rw [if_pos rfl, h.trace_of_absent fun part hpart => (hnode.id_lt hpart).ne]
    exact Traces.get_set_self m.traces node.id []
  · rw [if_neg hid]

end Caused

/-! ## Evaluations -/

namespace Evaluation

variable {α β : Type}

/-- Whatever the memory holds, the evaluation makes these calls. -/
def Causes (nodes : List Node) (x : Evaluation α) (calls : List Call) : Prop :=
  ∀ m, Caused nodes calls m (x.run m).2

variable {nodes others : List Node} {calls more : List Call}

theorem causes_pure (nodes : List Node) (a : α) : Causes nodes (pure a) [] :=
  fun m => .refl nodes m

theorem Causes.mono
    {x : Evaluation α}
    (h : Causes nodes x calls)
    (hsub : ∀ node ∈ nodes, Node.Present others node) :
    Causes others x calls :=
  fun m => (h m).mono hsub

theorem Causes.bind
    {x : Evaluation α} {f : α → Evaluation β} {a : α}
    (hx : Causes nodes x calls)
    (ha : Gives x a)
    (hf : Causes nodes (f a) more) :
    Causes nodes (x >>= f) (calls ++ more) := by
  intro m
  have hrun : (x >>= f).run m = (f (x.run m).1).run (x.run m).2 := rfl
  rw [hrun, ha m]
  exact (hx m).trans (hf _)

/-- What comes last may do without calls. -/
theorem Causes.finish
    {x : Evaluation α} {f : α → Evaluation β} {a : α}
    (hx : Causes nodes x calls)
    (ha : Gives x a)
    (hf : Causes nodes (f a) []) :
    Causes nodes (x >>= f) calls := by
  have h := hx.bind ha hf
  rwa [List.append_nil] at h

theorem Causes.settle
    {node : Node}
    (hnode : node.Ordered)
    {x : Evaluation Reading} {r : Reading}
    (hx : Causes node.children x calls)
    (hr : Gives x r)
    (method : Method) :
    Causes [node] (Memory.settle node.id x)
      [⟨node, method, some r, calls⟩] := by
  intro m
  have hend :=
    (hx { m with traces := m.traces.set node.id [] }).ended hnode method r
  rw [← hr { m with traces := m.traces.set node.id [] }] at hend ⊢
  exact hend

end Evaluation

namespace Node

open Evaluation

variable {node : Node} {nodes : List Node}

/-! ## Bounds -/

theorem causes_report (node : Node) (tracer : Tracer)
    (method : Method) (r : Reading) :
    Causes nodes (node.report tracer method r) [] :=
  fun _ => .none rfl rfl

/-- Reporting a reading adds no calls. -/
theorem causes_reported (node : Node) (tracer : Tracer)
    (method : Method) (r : Reading) :
    Causes nodes (do node.report tracer method r; return r) [] :=
  (causes_report node tracer method r).finish
    (gives_report node tracer method r)
    (causes_pure nodes r)

theorem gives_reported (node : Node) (tracer : Tracer)
    (method : Method) (r : Reading) :
    Gives (do node.report tracer method r; return r) r :=
  (gives_report node tracer method r).bind (gives_pure r)

theorem causes_boundEach
    {e : Extreme}
    (h : ∀ node ∈ nodes, Causes [node] (node.bound e) [boundCall node e]) :
    Causes nodes (boundEach nodes e) (boundCalls nodes e) := by
  induction nodes with
  | nil => exact causes_pure [] []
  | cons node rest ih =>
      rw [List.forall_mem_cons] at h
      have hfirst : Causes (node :: rest) (node.bound e) [boundCall node e] :=
        h.1.mono (present_head node rest)
      have hrest :
          Causes (node :: rest) (boundEach rest e) (boundCalls rest e) :=
        (ih h.2).mono (present_tail node rest)
      have hvalues :
          (boundEach rest e).Gives (rest.map fun other => other.extreme e) :=
        gives_boundEach fun other _ => gives_bound other e
      exact hfirst.bind (gives_bound node e)
        (hrest.finish hvalues (causes_pure _ _))

/-- Asking for a bound makes the call of the bound. -/
theorem causes_bound
    (h : node.Ordered)
    (e : Extreme) :
    Causes [node] (node.bound e) [boundCall node e] := by
  have hvalues (nodes : List Node) (e : Extreme) :
      (boundEach nodes e).Gives (nodes.map fun node => node.extreme e) :=
    gives_boundEach fun node _ => gives_bound node e
  induction node using induction_members generalizing e with
  | die id d =>
      rw [bound, boundCall]
      exact Causes.settle h (causes_pure _ _) (gives_pure _) e.method
  | pool id items ih =>
      rw [bound, boundCall]
      have hitems : Causes items (boundEach items e) (boundCalls items e) :=
        causes_boundEach fun item hitem => ih item hitem (h.child hitem) e
      exact Causes.settle h (hitems.finish (hvalues items e) (causes_pure _ _))
        ((hvalues items e).bind (gives_pure _)) e.method
  | arithmetic id tracer op operand inner ih =>
      rw [bound, boundCall]
      have hinner : inner.Ordered := h.child (List.mem_singleton_self inner)
      refine Causes.settle h ?_ ?_ e.method
      · refine (ih hinner .least).bind (gives_bound inner .least) ?_
        exact (ih hinner .greatest).finish (gives_bound inner .greatest)
          (causes_reported _ _ _ _)
      · refine (gives_bound inner .least).bind
          ((gives_bound inner .greatest).bind ?_)
        exact gives_reported _ _ _ _
  | dropKeep id tracer selection threshold inner _ ih =>
      rw [bound_dropKeep, boundCall_dropKeep]
      have hchild := present_members inner
      have hmembers : Causes inner.members (boundEach inner.members e)
          (boundCalls inner.members e) :=
        causes_boundEach fun member hmember =>
          ih member hmember (h.of_present (hchild member hmember)) e
      refine Causes.settle h ?_
        ((hvalues inner.members e).bind (gives_reported _ _ _ _)) e.method
      exact (hmembers.mono hchild).finish
        (hvalues inner.members e) (causes_reported _ _ _ _)
  | explode id tracer comparator threshold inner _ ih =>
      cases e with
      | greatest =>
          rw [bound_explode_greatest, boundCall_explode_greatest]
          exact Causes.settle h (causes_reported _ _ _ _)
            (gives_reported _ _ _ _)
            Extreme.greatest.method
      | least =>
          rw [bound_explode_least, boundCall_explode_least]
          have hchild := present_members inner
          have hmembers : Causes inner.members (boundEach inner.members .least)
              (boundCalls inner.members .least) :=
            causes_boundEach fun member hmember =>
              ih member hmember (h.of_present (hchild member hmember)) .least
          refine Causes.settle h ?_
            ((hvalues inner.members .least).bind (gives_reported _ _ _ _))
            Extreme.least.method
          exact (hmembers.mono hchild).finish
            (hvalues inner.members .least) (causes_reported _ _ _ _)

/-! ## Exactness -/

theorem causes_allExactBounds
    (h : ∀ node ∈ nodes, Causes [node] node.hasExactBounds (exactCalls node)) :
    Causes nodes (allExactBounds nodes) (allExactCalls nodes) := by
  induction nodes with
  | nil => exact causes_pure [] true
  | cons node rest ih =>
      rw [List.forall_mem_cons] at h
      have hfirst :
          Causes (node :: rest) node.hasExactBounds (exactCalls node) :=
        h.1.mono (present_head node rest)
      have hrest :
          Causes (node :: rest) (allExactBounds rest) (allExactCalls rest) :=
        (ih h.2).mono (present_tail node rest)
      rw [allExactBounds, allExactCalls]
      apply hfirst.bind (gives_hasExactBounds node)
      cases node.isExact with
      | true => exact hrest
      | false => exact causes_pure _ _

/-- Asking whether the bounds are exact makes the calls that are listed for
it. -/
theorem causes_hasExactBounds (h : node.Ordered) :
    Causes [node] node.hasExactBounds (exactCalls node) := by
  induction node using induction_members with
  | die id d => exact causes_pure _ _
  | pool id items ih =>
      rw [hasExactBounds, exactCalls]
      have hitems : Causes items (allExactBounds items) (allExactCalls items) :=
        causes_allExactBounds fun item hitem => ih item hitem (h.child hitem)
      exact hitems.mono (present_children (pool id items))
  | arithmetic id tracer op operand inner ih =>
      have hinner : inner.Ordered := h.child (List.mem_singleton_self inner)
      have hsub := present_children (arithmetic id tracer op operand inner)
      rw [hasExactBounds, exactCalls]
      apply ((ih hinner).mono hsub).bind (gives_hasExactBounds inner)
      cases inner.isExact with
      | false => exact causes_pure _ _
      | true =>
          simp only [Bool.not_true, Bool.false_eq_true, if_false]
          by_cases heasy :
            (!op.isEvenPower operand || !inner.listedFaces.isEmpty) = true
          · rw [if_pos heasy, if_pos heasy]
            exact causes_pure _ _
          · rw [if_neg heasy, if_neg heasy]
            have hleast := (causes_bound hinner .least).mono hsub
            have hgreatest := (causes_bound hinner .greatest).mono hsub
            by_cases hlow : 0 ≤ inner.extreme .least
            · rw [if_pos hlow]
              apply hleast.finish (gives_bound inner .least)
              rw [if_pos hlow]
              exact causes_pure _ _
            · rw [if_neg hlow]
              apply hleast.bind (gives_bound inner .least)
              rw [if_neg hlow]
              exact hgreatest.finish (gives_bound inner .greatest)
                (causes_pure _ _)
  | dropKeep id tracer selection threshold inner ih _ =>
      rw [hasExactBounds, exactCalls]
      have hinner : inner.Ordered := h.child (List.mem_singleton_self inner)
      exact (ih hinner).mono
        (present_children (dropKeep id tracer selection threshold inner))
  | explode id tracer comparator threshold inner _ _ => exact causes_pure _ _

end Node
end DiceNotation
