import DiceNotation.Proofs.History.Effects

/-!
# Histories

A history is a list of events, the latest first: calls that were made, and
copies of nodes that were taken.  It determines a trace for every node.  If the
node was never called, this is the trace with which it started: none, or that
of the original at the time when the copy was taken.  If it was called, it is
the trace of the last call.

A memory is recorded by such traces if they are those of all nodes that can be
reached.  Calls and new nodes keep it recorded.
-/

namespace DiceNotation

/-- What can change the traces of nodes. -/
inductive Event where
  | called (calls : List Call)
  | copied (copy original : NodeId)

/-- The traces of nodes after a history, the latest event first, that began with
other traces. -/
def tracesAfter (initial : NodeId → Text) : List Event → NodeId → Text
  | [], node => initial node
  | .called calls :: past, node =>
      Call.traceAfter calls node (tracesAfter initial past node)
  | .copied copy original :: past, node =>
      tracesAfter initial past (if node = copy then original else node)

/-- The events of taking copies of a node, with identities from `copy` on. -/
def copyEvents (original : NodeId) : NodeId → Nat → List Event
  | _, 0 => []
  | copy, n + 1 => copyEvents original (copy + 1) n ++ [.copied copy original]

/-- The calls of a history, from the earliest to the latest. -/
def callsIn : List Event → List Call
  | [] => []
  | .called calls :: past => callsIn past ++ calls
  | .copied _ _ :: past => callsIn past

theorem tracesAfter_append (initial : NodeId → Text)
    (events past : List Event) :
    tracesAfter initial (events ++ past) =
      tracesAfter (tracesAfter initial past) events := by
  funext node
  induction events generalizing node with
  | nil => rfl
  | cons event events ih =>
      cases event with
      | called calls =>
          rw [List.cons_append, tracesAfter, tracesAfter, ih]
      | copied copy original =>
          rw [List.cons_append, tracesAfter, tracesAfter, ih]

theorem callsIn_append (events past : List Event) :
    callsIn (events ++ past) = callsIn past ++ callsIn events := by
  induction events with
  | nil => exact (List.append_nil _).symm
  | cons event events ih =>
      cases event with
      | called calls =>
          rw [List.cons_append, callsIn, callsIn, ih, List.append_assoc]
      | copied copy original => rw [List.cons_append, callsIn, callsIn, ih]

/-- Copies of a node without a trace start without one. -/
theorem tracesAfter_copyEvents
    {initial : NodeId → Text} {original copy : NodeId}
    (horiginal : initial original = [])
    (hcopies : ∀ id, copy ≤ id → initial id = [])
    (n : Nat) :
    tracesAfter initial (copyEvents original copy n) = initial := by
  induction n generalizing copy with
  | zero => rfl
  | succ n ih =>
      have hfirst : tracesAfter initial [.copied copy original] = initial := by
        funext id
        rw [tracesAfter, tracesAfter]
        by_cases hid : id = copy
        · rw [if_pos hid, horiginal, hid, hcopies copy le_rfl]
        · rw [if_neg hid]
      rw [copyEvents, tracesAfter_append, hfirst]
      exact ih fun id hid => hcopies id ((Nat.le_succ copy).trans hid)

/-- The trace with which a node started: none, or that of the original at the
time when the copy was taken. -/
def initialTrace : List Event → NodeId → Text
  | [], _ => []
  | .called _ :: past, node => initialTrace past node
  | .copied copy original :: past, node =>
      if node = copy then
        Call.traceAfter (callsIn past) original (initialTrace past original)
      else
        initialTrace past node

/-- Copies are new when they are taken: they were not called before. -/
def CopiesAreNew : List Event → Prop
  | [] => True
  | .called _ :: past => CopiesAreNew past
  | .copied copy _ :: past =>
      (∀ call ∈ Call.allStarted (callsIn past), call.node.id ≠ copy) ∧
        CopiesAreNew past

/-- The trace of a node is that of its last call, if there was any, and else the
one with which it started. -/
theorem tracesAfter_eq_last
    {past : List Event}
    (h : CopiesAreNew past)
    (node : NodeId) :
    tracesAfter (fun _ => []) past node =
      Call.traceAfter (callsIn past) node (initialTrace past node) := by
  induction past generalizing node with
  | nil => rfl
  | cons event past ih =>
      cases event with
      | called calls =>
          rw [tracesAfter, callsIn, initialTrace, ih h, Call.traceAfter_append]
      | copied copy original =>
          rw [tracesAfter, callsIn, initialTrace, ih h.2]
          by_cases hcopy : node = copy
          · rw [if_pos hcopy, if_pos hcopy, hcopy]
            exact (Call.traceAfter_of_forall_ne h.1 _).symm
          · rw [if_neg hcopy, if_neg hcopy]

/-- Copies that are taken with new identities. -/
theorem copiesAreNew_copyEvents
    {past : List Event} {copy : NodeId}
    (hpast : CopiesAreNew past)
    (hcopy : ∀ call ∈ Call.allStarted (callsIn past), call.node.id < copy)
    (original : NodeId) (n : Nat) :
    CopiesAreNew (copyEvents original copy n ++ past) := by
  induction n generalizing copy past with
  | zero => exact hpast
  | succ n ih =>
      rw [copyEvents, List.append_assoc]
      apply ih
      · exact ⟨fun call hcall => (hcopy call hcall).ne, hpast⟩
      · intro call hcall
        exact (hcopy call hcall).trans (Nat.lt_succ_self copy)

theorem callsIn_copyEvents (original copy : NodeId) (n : Nat) :
    callsIn (copyEvents original copy n) = [] := by
  induction n generalizing copy with
  | zero => rfl
  | succ n ih =>
      rw [copyEvents, callsIn_append, ih, List.append_nil, callsIn, callsIn]

namespace Node

theorem id_withId (id : NodeId) (node : Node) : (node.withId id).id = id := by
  cases node <;> rfl

theorem children_withId (id : NodeId) (node : Node) :
    (node.withId id).children = node.children := by
  cases node <;> rfl

end Node

namespace Memory

/-- The memory after an identity was handed out. -/
def numbered (m : Memory) : Memory :=
  { m with fresh := m.fresh + 1 }

end Memory

/-- What the memory holds is known: the identities of the nodes are in order and
were handed out, from a first one on, the traces of these nodes and of nodes
with earlier identities are the recorded ones, and identities that are still to
be handed out have no traces. -/
structure Recorded (first : NodeId) (nodes : List Node) (traces : NodeId → Text)
    (m : Memory) : Prop where
  identified : Node.Identified nodes m.fresh
  first_le : first ≤ m.fresh
  later : ∀ part, Node.Present nodes part → first ≤ part.id
  trace : ∀ part, Node.Present nodes part → m.trace part.id = traces part.id
  earlier : ∀ id, id < first → m.trace id = traces id
  blank : ∀ id, m.fresh ≤ id → m.trace id = [] ∧ traces id = []

namespace Recorded

open Node

variable {first : NodeId} {nodes others : List Node} {calls : List Call}
  {traces : NodeId → Text} {m m' : Memory}

theorem of_blank
    (h : ∀ id, m.fresh ≤ id → m.trace id = []) :
    Recorded m.fresh [] m.trace m where
  identified := .nil m.fresh
  first_le := le_rfl
  later := by
    rintro part ⟨node, hnode, -⟩
    exact absurd hnode List.not_mem_nil
  trace _ _ := rfl
  earlier _ _ := rfl
  blank id hid := ⟨h id hid, h id hid⟩

theorem mono
    (h : Recorded first nodes traces m)
    (hsub : ∀ node ∈ others, Present nodes node) :
    Recorded first others traces m where
  identified := h.identified.mono hsub le_rfl
  first_le := h.first_le
  later part hpart := h.later part (hpart.mono hsub)
  trace part hpart := h.trace part (hpart.mono hsub)
  earlier := h.earlier
  blank := h.blank

/-- Traces that agree on all nodes of interest. -/
theorem congr
    {traces' : NodeId → Text}
    (h : Recorded first nodes traces m)
    (heq : ∀ id, traces id = traces' id) :
    Recorded first nodes traces' m := by
  have htraces : traces = traces' := funext heq
  rwa [← htraces]

/-- Handing out an identity leaves the nodes alone. -/
theorem numbered (h : Recorded first nodes traces m) :
    Recorded first nodes traces m.numbered where
  identified := h.identified.mono (fun _ hnode => present_of_mem hnode)
    (Nat.le_succ m.fresh)
  first_le := h.first_le.trans (Nat.le_succ m.fresh)
  later := h.later
  trace := h.trace
  earlier := h.earlier
  blank id hid := h.blank id ((Nat.le_succ m.fresh).trans hid)

/-- Calls of the nodes change traces as recorded. -/
theorem caused
    (h : Recorded first nodes traces m)
    (hcalls : Caused nodes calls m m') :
    Recorded first nodes
      (fun id => Call.traceAfter calls id (traces id)) m' := by
  have hfresh := hcalls.fresh
  constructor
  · rw [hfresh]
    exact h.identified
  · rw [hfresh]
    exact h.first_le
  · exact h.later
  · intro part hpart
    rw [hcalls.trace, h.trace part hpart]
  · intro id hid
    rw [hcalls.trace, h.earlier id hid]
  · intro id hid
    rw [hfresh] at hid
    have hold : ∀ call ∈ Call.allStarted calls, call.node.id ≠ id :=
      fun call hcall => ((h.identified.id_lt_of_present
        (hcalls.present call hcall)).trans_le hid).ne
    rw [hcalls.trace, Call.traceAfter_of_forall_ne hold,
      Call.traceAfter_of_forall_ne hold]
    exact h.blank id hid

/-- A new node whose children were there before, and which got its identity
after them. -/
theorem grow
    (h : Recorded first nodes traces m)
    {node : Node}
    (hchildren : ∀ child ∈ node.children, Present nodes child)
    (hfirst : first ≤ node.id)
    (hidentified : Identified nodes node.id)
    (hfresh : node.id < m.fresh)
    (htrace : m.trace node.id = traces node.id) :
    Recorded first (nodes ++ [node]) traces m := by
  have hinside {part : Node} (hpart : Present (nodes ++ [node]) part) :
      Present nodes part ∨ part = node := by
    rcases present_append_iff.mp hpart with hpart | hpart
    · exact Or.inl hpart
    · rw [present_singleton_iff, occurs_iff] at hpart
      exact hpart.symm.imp_left fun hchild => hchild.mono hchildren
  constructor
  · exact hidentified.grow hchildren le_rfl hfresh
  · exact h.first_le
  · intro part hpart
    rcases hinside hpart with hpart | rfl
    · exact h.later part hpart
    · exact hfirst
  · intro part hpart
    rcases hinside hpart with hpart | rfl
    · exact h.trace part hpart
    · exact htrace
  · exact h.earlier
  · exact h.blank

/-- A node that gets the next identity. -/
theorem node
    (h : Recorded first nodes traces m)
    (node : Node)
    (hchildren : ∀ child ∈ node.children, Present nodes child)
    (hid : node.id = m.fresh) :
    Recorded first (nodes ++ [node]) traces m.numbered := by
  apply h.numbered.grow hchildren
  · rw [hid]
    exact h.first_le
  · rw [hid]
    exact h.identified
  · rw [hid]
    exact Nat.lt_succ_self m.fresh
  · rw [hid]
    obtain ⟨hmemory, htraces⟩ := h.blank m.fresh le_rfl
    exact hmemory.trans htraces.symm

/-- A copy of a node, which starts with the trace of the original. -/
theorem copy
    (h : Recorded first nodes traces m)
    {original : Node}
    (horiginal : Present nodes original) :
    Recorded first (nodes ++ [original.withId m.fresh])
      (fun id => traces (if id = m.fresh then original.id else id))
      { m.numbered with
        traces := m.traces.set m.fresh (m.trace original.id) } := by
  have hset (id : NodeId) :
      (m.traces.set m.fresh (m.trace original.id)).get id =
        if m.fresh = id then m.trace original.id else m.trace id :=
    Traces.get_set m.traces m.fresh id (m.trace original.id)
  have hother {id : NodeId} (hne : id ≠ m.fresh) :
      (m.traces.set m.fresh (m.trace original.id)).get id = m.trace id ∧
        traces (if id = m.fresh then original.id else id) = traces id := by
    rw [hset, if_neg hne.symm, if_neg hne]
    exact ⟨rfl, rfl⟩
  have hbefore : Recorded first nodes
      (fun id => traces (if id = m.fresh then original.id else id))
      { m.numbered with
        traces := m.traces.set m.fresh (m.trace original.id) } := by
    constructor
    · exact h.numbered.identified
    · exact h.numbered.first_le
    · exact h.later
    · intro part hpart
      obtain ⟨hmemory, htraces⟩ :=
        hother (h.identified.id_lt_of_present hpart).ne
      exact hmemory.trans ((h.trace part hpart).trans htraces.symm)
    · intro id hid
      obtain ⟨hmemory, htraces⟩ := hother (hid.trans_le h.first_le).ne
      exact hmemory.trans ((h.earlier id hid).trans htraces.symm)
    · intro id hid
      obtain ⟨hmemory, htraces⟩ := hother (Nat.lt_of_succ_le hid).ne'
      obtain ⟨hnone, hnone'⟩ := h.blank id ((Nat.le_succ m.fresh).trans hid)
      exact ⟨hmemory.trans hnone, htraces.trans hnone'⟩
  have hid : (original.withId m.fresh).id = m.fresh :=
    id_withId m.fresh original
  apply hbefore.grow
  · rw [children_withId]
    intro child hchild
    exact horiginal.child hchild
  · rw [hid]
    exact h.first_le
  · rw [hid]
    exact h.identified
  · rw [hid]
    exact Nat.lt_succ_self m.fresh
  · rw [hid, if_pos rfl, ← h.trace original horiginal]
    exact (hset m.fresh).trans (if_pos rfl)

/-- Nodes that were built later, all on their own. -/
theorem merge
    (h : Recorded first nodes traces m)
    (hlater : Recorded m.fresh others
      (fun id => Call.traceAfter calls id (m.trace id)) m') :
    Recorded first (nodes ++ others)
      (fun id => Call.traceAfter calls id (traces id)) m' := by
  have hblank {id : NodeId} (hid : m.fresh ≤ id) : m.trace id = traces id := by
    obtain ⟨hmemory, htraces⟩ := h.blank id hid
    exact hmemory.trans htraces.symm
  constructor
  · exact h.identified.append hlater.identified hlater.later hlater.first_le
  · exact h.first_le.trans hlater.first_le
  · intro part hpart
    rcases present_append_iff.mp hpart with hpart | hpart
    · exact h.later part hpart
    · exact h.first_le.trans (hlater.later part hpart)
  · intro part hpart
    rcases present_append_iff.mp hpart with hpart | hpart
    · rw [hlater.earlier part.id (h.identified.id_lt_of_present hpart),
        h.trace part hpart]
    · rw [hlater.trace part hpart, hblank (hlater.later part hpart)]
  · intro id hid
    rw [hlater.earlier id (hid.trans_le h.first_le), h.earlier id hid]
  · intro id hid
    have hnone := hlater.blank id hid
    rwa [hblank (hlater.first_le.trans hid)] at hnone

/-- Nodes that were built later and can no longer be reached. -/
theorem discard
    (h : Recorded first nodes traces m)
    (hlater : Recorded m.fresh others
      (fun id => Call.traceAfter calls id (m.trace id)) m')
    (hcalls : ∀ call ∈ Call.allStarted calls, Present others call.node) :
    Recorded first nodes traces m' := by
  have hkept {id : NodeId} (hid : id < m.fresh) : m'.trace id = m.trace id := by
    rw [hlater.earlier id hid]
    apply Call.traceAfter_of_forall_ne
    intro call hcall
    exact (hid.trans_le (hlater.later call.node (hcalls call hcall))).ne'
  constructor
  · exact h.identified.mono (fun _ hnode => present_of_mem hnode)
      hlater.first_le
  · exact h.first_le.trans hlater.first_le
  · exact h.later
  · intro part hpart
    rw [hkept (h.identified.id_lt_of_present hpart), h.trace part hpart]
  · intro id hid
    rw [hkept (hid.trans_le h.first_le), h.earlier id hid]
  · intro id hid
    exact ⟨(hlater.blank id hid).1, (h.blank id (hlater.first_le.trans hid)).2⟩

end Recorded
end DiceNotation
