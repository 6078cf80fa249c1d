import DiceNotation.Proofs.History.Effects

/-!
# Where calls come from

The calls that an evaluation of a node starts are calls of nodes in this node,
and each of them came to what evaluating its node comes to.  A roll that was
broken off came to nothing.
-/

namespace DiceNotation

open Rolling Node

variable {σ : Type}

/-- The call came to what its node comes to: a roll to what it comes to at some
table, and a bound to the value that is returned from some memory and to the
trace that is left on the node. -/
inductive Call.Happened (engine : Engine σ) : Call → Prop where
  | roll (node : Node) (t : Table σ) (inner : List Call) :
      Happened engine
        ⟨node, .roll,
          (run (node.roll engine) t).1.toOption.map Outcome.toReading, inner⟩
  | bound (node : Node) (e : Extreme) (m : Memory) (inner : List Call) :
      Happened engine
        ⟨node, e.method,
          some ⟨((node.bound e).run m).1,
            ((node.bound e).run m).2.trace node.id⟩, inner⟩

namespace Call

/-- The property holds of all calls that were started. -/
def Throughout (P : Call → Prop) (calls : List Call) : Prop :=
  ∀ call ∈ allStarted calls, P call

variable {P : Call → Prop} {calls more : List Call}

theorem throughout_nil : Throughout P [] := by
  intro call hcall
  exact absurd hcall List.not_mem_nil

theorem Throughout.append
    (h : Throughout P calls)
    (hmore : Throughout P more) :
    Throughout P (calls ++ more) := by
  intro call hcall
  rw [allStarted_append, List.mem_append] at hcall
  exact hcall.elim (h call) (hmore call)

/-- From the calls within a call to the call. -/
theorem Throughout.call
    {call : Call}
    (h : Throughout P call.inner)
    (hcall : P call) :
    Throughout P [call] := by
  intro other hother
  rw [allStarted_singleton] at hother
  rcases List.mem_cons.mp hother with rfl | hother
  · exact hcall
  · exact h other hother

end Call

theorem throughout_followUp
    {P : Call → Prop} {α : Type} {next : α → Table σ → List Call}
    (h : ∀ a u, Call.Throughout P (next a u))
    (x : Rolling σ α) (t : Table σ) :
    Call.Throughout P (followUp x next t) := by
  unfold followUp
  split
  · exact h _ _
  · exact Call.throughout_nil

/-- All calls that were started happened, to nodes that occur in the given
ones. -/
def Happen (engine : Engine σ) (nodes : List Node) (calls : List Call) : Prop :=
  ∀ call ∈ Call.allStarted calls, call.Happened engine ∧ Present nodes call.node

variable {engine : Engine σ} {node : Node} {nodes others : List Node}
  {calls more : List Call}

theorem happen_nil : Happen engine nodes [] :=
  Call.throughout_nil

theorem Happen.mono
    (h : Happen engine nodes calls)
    (hsub : ∀ node ∈ nodes, Present others node) :
    Happen engine others calls :=
  fun call hcall => ⟨(h call hcall).1, (h call hcall).2.mono hsub⟩

theorem Happen.append
    (h : Happen engine nodes calls)
    (hmore : Happen engine nodes more) :
    Happen engine nodes (calls ++ more) :=
  Call.Throughout.append h hmore

/-- A call of a node from the calls within it. -/
theorem Happen.call
    {method : Method} {reading : Option Reading}
    (hcall : (Call.mk node method reading calls).Happened engine)
    (h : Happen engine node.children calls) :
    Happen engine [node] [⟨node, method, reading, calls⟩] := by
  apply Call.Throughout.call
  · intro other hother
    refine ⟨(h other hother).1, ?_⟩
    rw [present_singleton_iff, occurs_iff]
    exact Or.inr (h other hother).2
  · exact ⟨hcall, present_singleton_iff.mpr (.here node)⟩

namespace Node

/-! ## Bounds -/

theorem happen_ofBound
    (h : Happen engine node.children calls)
    (e : Extreme) :
    Happen engine [node] [.ofBound node e calls] := by
  obtain ⟨hvalue, htrace⟩ := run_bound node e Memory.empty
  have hcall : (Call.mk node e.method _ calls).Happened engine :=
    .bound node e Memory.empty calls
  rw [hvalue, htrace] at hcall
  exact h.call hcall

theorem happen_boundCalls
    {e : Extreme}
    (h : ∀ node ∈ nodes, Happen engine [node] [boundCall node e]) :
    Happen engine nodes (boundCalls nodes e) := by
  induction nodes with
  | nil => exact happen_nil
  | cons node rest ih =>
      rw [List.forall_mem_cons] at h
      exact (h.1.mono (present_head node rest)).append
        ((ih h.2).mono (present_tail node rest))

theorem happen_boundCall (node : Node) (e : Extreme) :
    Happen engine [node] [boundCall node e] := by
  induction node using induction_members generalizing e with
  | die id d =>
      rw [boundCall]
      exact happen_ofBound happen_nil e
  | pool id items ih =>
      rw [boundCall]
      have hitems := happen_boundCalls fun item hitem => ih item hitem e
      exact happen_ofBound hitems e
  | arithmetic id tracer op operand inner ih =>
      rw [boundCall]
      exact happen_ofBound ((ih .least).append (ih .greatest)) e
  | dropKeep id tracer selection threshold inner _ ih =>
      rw [boundCall_dropKeep]
      have hmembers :=
        happen_boundCalls fun member hmember => ih member hmember e
      apply happen_ofBound
      exact hmembers.mono (present_members inner)
  | explode id tracer comparator threshold inner _ ih =>
      cases e with
      | greatest =>
          rw [boundCall_explode_greatest]
          exact happen_ofBound happen_nil .greatest
      | least =>
          rw [boundCall_explode_least]
          have hmembers :=
            happen_boundCalls fun member hmember => ih member hmember .least
          apply happen_ofBound
          exact hmembers.mono (present_members inner)

/-! ## Checks -/

theorem happen_endCalls (node : Node) : Happen engine [node] (endCalls node) :=
  (happen_boundCall node .least).append (happen_boundCall node .greatest)

theorem happen_allExactCalls
    (h : ∀ node ∈ nodes, Happen engine [node] (exactCalls node)) :
    Happen engine nodes (allExactCalls nodes) := by
  induction nodes with
  | nil => exact happen_nil
  | cons node rest ih =>
      rw [List.forall_mem_cons] at h
      rw [allExactCalls]
      apply (h.1.mono (present_head node rest)).append
      split
      · exact (ih h.2).mono (present_tail node rest)
      · exact happen_nil

theorem happen_exactCalls (node : Node) :
    Happen engine [node] (exactCalls node) := by
  induction node using induction_members with
  | die id d => exact happen_nil
  | pool id items ih =>
      rw [exactCalls]
      exact (happen_allExactCalls ih).mono (present_children (pool id items))
  | arithmetic id tracer op operand inner ih =>
      rw [exactCalls]
      apply Happen.mono _
        (present_children (arithmetic id tracer op operand inner))
      apply ih.append
      split
      · exact happen_nil
      · split
        · exact happen_nil
        · by_cases hlow : 0 ≤ inner.extreme .least
          · rw [if_pos hlow]
            exact happen_boundCall inner .least
          · rw [if_neg hlow]
            exact happen_endCalls inner
  | dropKeep id tracer selection threshold inner ih _ =>
      rw [exactCalls]
      exact ih.mono
        (present_children (dropKeep id tracer selection threshold inner))
  | explode id tracer comparator threshold inner _ _ => exact happen_nil

theorem happen_memberCalls
    (comparator : Comparator) (threshold : Option Int) (members : List Node) :
    Happen engine members (memberCalls comparator threshold members) := by
  induction members with
  | nil => exact happen_nil
  | cons member rest ih =>
      rw [memberCalls]
      apply ((happen_endCalls member).mono (present_head member rest)).append
      split
      · exact happen_nil
      · exact ih.mono (present_tail member rest)

theorem happen_checkCalls
    (comparator : Comparator) (threshold : Option Int) (inner : Node) :
    Happen engine [inner] (checkCalls comparator threshold inner) := by
  unfold checkCalls
  split
  · exact happen_nil
  · have hexact : Happen engine inner.members (allExactCalls inner.members) :=
      happen_allExactCalls fun member _ => happen_exactCalls member
    apply (hexact.mono (present_members inner)).append
    split
    · apply (happen_endCalls inner).append
      split
      · exact happen_nil
      · exact (happen_memberCalls comparator threshold inner.members).mono
          (present_members inner)
    · exact happen_nil

theorem happen_allBuildCalls
    (h : ∀ node ∈ nodes, Happen engine [node] (buildCalls node)) :
    Happen engine nodes (allBuildCalls nodes) := by
  induction nodes with
  | nil => exact happen_nil
  | cons node rest ih =>
      rw [List.forall_mem_cons] at h
      exact (h.1.mono (present_head node rest)).append
        ((ih h.2).mono (present_tail node rest))

theorem happen_buildCalls (node : Node) :
    Happen engine [node] (buildCalls node) := by
  induction node using induction_members with
  | die id d => exact happen_nil
  | pool id items ih =>
      rw [buildCalls]
      exact (happen_allBuildCalls ih).mono (present_children (pool id items))
  | arithmetic id tracer op operand inner ih =>
      rw [buildCalls]
      exact ih.mono (present_children (arithmetic id tracer op operand inner))
  | dropKeep id tracer selection threshold inner ih _ =>
      rw [buildCalls]
      exact ih.mono
        (present_children (dropKeep id tracer selection threshold inner))
  | explode id tracer comparator threshold inner ih _ =>
      rw [buildCalls]
      have hcalls := ih.append (happen_checkCalls comparator threshold inner)
      exact hcalls.mono
        (present_children (explode id tracer comparator threshold inner))

/-! ## Rolls -/

/-- Rolling a node is a call of this node. -/
theorem exists_rollCall (engine : Engine σ) (node : Node) (t : Table σ) :
    ∃ calls, rollCall engine node t = ofRoll engine node calls t := by
  cases node with
  | die | pool | arithmetic => exact ⟨_, by rw [rollCall]⟩
  | dropKeep => exact ⟨_, by rw [rollCall_dropKeep]⟩
  | explode => exact ⟨_, by rw [rollCall_explode]⟩

section Rolls

variable {P : Call → Prop}

theorem throughout_ofRoll
    {inner : Table σ → List Call}
    {t : Table σ}
    (hroll : P (ofRoll engine node inner t))
    (h : Call.Throughout P (inner (node.opened t))) :
    Call.Throughout P [ofRoll engine node inner t] :=
  h.call hroll

theorem throughout_roundCalls
    {call : Table σ → Call}
    (h : ∀ t, Call.Throughout P [call t])
    (again : Outcome → Bool) (roll : Rolling σ Outcome)
    (rounds : Nat) (t : Table σ) :
    Call.Throughout P (roundCalls again roll call rounds t) := by
  induction rounds generalizing t with
  | zero => exact Call.throughout_nil
  | succ rounds ih =>
      rw [roundCalls, ← List.singleton_append]
      apply (h t).append
      apply throughout_followUp
      intro o u
      split
      · exact ih u
      · exact Call.throughout_nil

theorem throughout_burstCalls
    {call : Table σ → Call} {threshold : Option Int}
    (h : ∀ t, Call.Throughout P [call t])
    (hlimit : threshold = none → Call.Throughout P [boundCall node .greatest])
    (comparator : Comparator) (t : Table σ) :
    Call.Throughout P (burstCalls engine comparator threshold node call t) := by
  unfold burstCalls
  apply Call.Throughout.append
  · cases threshold with
    | none => exact hlimit rfl
    | some limit => exact Call.throughout_nil
  · apply throughout_followUp
    intro limit u
    exact throughout_roundCalls h _ _ _ u

theorem throughout_eachCalls
    (h : ∀ node ∈ nodes, ∀ t, Call.Throughout P [rollCall engine node t])
    (t : Table σ) :
    Call.Throughout P (eachCalls engine nodes t) := by
  induction nodes generalizing t with
  | nil => exact Call.throughout_nil
  | cons node rest ih =>
      rw [List.forall_mem_cons] at h
      rw [eachCalls]
      apply (h.1 t).append
      apply throughout_followUp
      intro o u
      exact ih h.2 u

theorem throughout_explosionCalls
    {threshold : Option Int}
    (h : ∀ node ∈ nodes, ∀ t, Call.Throughout P [rollCall engine node t])
    (hlimit : threshold = none →
      ∀ node ∈ nodes, Call.Throughout P [boundCall node .greatest])
    (comparator : Comparator) (t : Table σ) :
    Call.Throughout P (explosionCalls engine comparator threshold nodes t) := by
  induction nodes generalizing t with
  | nil => exact Call.throughout_nil
  | cons node rest ih =>
      rw [List.forall_mem_cons] at h
      have hfirst hnone := hlimit hnone node List.mem_cons_self
      have hothers hnone other hother :=
        hlimit hnone other (List.mem_cons_of_mem node hother)
      rw [explosionCalls]
      apply (throughout_burstCalls h.1 hfirst comparator t).append
      apply throughout_followUp
      intro outcomes u
      exact ih h.2 hothers u

/-- What holds of the rolls of all parts of a tree, and throughout the bounds
that explosions without a threshold ask for, holds throughout the rolls of
parts. -/
theorem throughout_rollCall
    {tree : Node}
    (hroll : ∀ part, Occurs part tree → ∀ t, P (rollCall engine part t))
    (hlimit : ∀ id tracer comparator inner,
      Occurs (explode id tracer comparator none inner) tree →
        ∀ member ∈ inner.members,
          Call.Throughout P [boundCall member .greatest])
    (hnode : Occurs node tree)
    (t : Table σ) :
    Call.Throughout P [rollCall engine node t] := by
  induction node using induction_members generalizing t with
  | die id d =>
      have hcall := hroll (die id d) hnode t
      rw [rollCall] at hcall ⊢
      exact throughout_ofRoll hcall Call.throughout_nil
  | pool id items ih =>
      have hcall := hroll (pool id items) hnode t
      rw [rollCall] at hcall ⊢
      have hitems :=
        throughout_eachCalls fun item hitem => ih item hitem (hnode.child hitem)
      exact throughout_ofRoll hcall (hitems _)
  | arithmetic id tracer op operand inner ih =>
      have hcall := hroll (arithmetic id tracer op operand inner) hnode t
      rw [rollCall] at hcall ⊢
      have hinner := ih (hnode.child (List.mem_singleton_self inner))
      exact throughout_ofRoll hcall (hinner _)
  | dropKeep id tracer selection threshold inner _ ih =>
      have hcall := hroll (dropKeep id tracer selection threshold inner) hnode t
      rw [rollCall_dropKeep] at hcall ⊢
      have hmembers := throughout_eachCalls fun member hmember =>
        ih member hmember (hnode.member (List.mem_singleton_self inner) hmember)
      exact throughout_ofRoll hcall (hmembers _)
  | explode id tracer comparator threshold inner _ ih =>
      have hcall := hroll (explode id tracer comparator threshold inner) hnode t
      rw [rollCall_explode] at hcall ⊢
      apply throughout_ofRoll hcall
      apply throughout_explosionCalls
      · intro member hmember
        exact ih member hmember
          (hnode.member (List.mem_singleton_self inner) hmember)
      · rintro rfl
        exact hlimit id tracer comparator inner hnode

end Rolls

theorem happen_rollCall (node : Node) (t : Table σ) :
    Happen engine [node] [rollCall engine node t] := by
  refine throughout_rollCall ?_ ?_ (.here node) t
  · intro part hpart u
    obtain ⟨calls, hcalls⟩ := exists_rollCall engine part u
    rw [hcalls]
    exact ⟨.roll part u _, present_singleton_iff.mpr hpart⟩
  · intro id tracer comparator inner hexplode member hmember
    have hpresent : Present [node] member :=
      present_singleton_iff.mpr
        (hexplode.member (List.mem_singleton_self inner) hmember)
    exact (happen_boundCall member .greatest).mono hpresent.singleton

end Node
end DiceNotation
