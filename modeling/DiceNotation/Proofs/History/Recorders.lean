import DiceNotation.Proofs.History.Origins
import DiceNotation.Proofs.History.Reports
import DiceNotation.Proofs.Roll.Structure

/-!
# What recorders hear of a roll

A recording tracer keeps every outcome that it is told about.  If all modifiers
of a tree have such tracers, then these keep the outcomes of the evaluations of
modifiers that come to their end.  In a roll without bounds, these are the
completed rolls.
-/

namespace DiceNotation

open Rolling Node

variable {σ : Type}

namespace Call

/-- Every call that was started and came to its end did so exactly once. -/
theorem perm_ended (call : Call) :
    (ended call).Perm
      ((started call).filter fun other => other.reading.isSome) := by
  induction call using Call.rec
    (motive_2 := fun calls =>
      (allEnded calls).Perm
        ((allStarted calls).filter fun other => other.reading.isSome)) with
  | mk node method reading inner ih =>
      rw [ended, started, List.filter_cons]
      cases reading with
      | none => simpa using ih
      | some r => exact (ih.append_right _).trans List.perm_append_comm
  | nil => exact .refl _
  | cons call rest ih ihRest =>
      rw [allEnded, allStarted, List.filter_append]
      exact ih.append ihRest

/-- The calls within a call end one after another, with the call right after
them. -/
theorem infix_ended
    {call whole : Call}
    (h : call ∈ started whole) :
    ended call <:+: ended whole := by
  induction whole using Call.rec
    (motive_2 := fun calls =>
      call ∈ allStarted calls → ended call <:+: allEnded calls) with
  | mk node method reading inner ih =>
      rw [started] at h
      rcases List.mem_cons.mp h with rfl | h
      · exact List.infix_refl _
      · rw [ended]
        exact (ih h).trans (List.prefix_append _ _).isInfix
  | nil h => exact absurd h List.not_mem_nil
  | cons first rest ih ihRest h =>
      rw [allStarted, List.mem_append] at h
      rw [allEnded]
      rcases h with h | h
      · exact (ih h).trans (List.prefix_append _ _).isInfix
      · exact (ihRest h).trans (List.suffix_append _ _).isInfix

/-- The outcome that the call came to, unless it was broken off. -/
def outcome? (call : Call) : Option Outcome :=
  call.reading.map (call.node.outcome call.method)

/-- What the tracer of the node keeps of the call, if it is a recording one. -/
def entry? (call : Call) : Option Entry :=
  (call.node.tracer?.bind Tracer.name).bind fun name =>
    call.outcome?.map (.outcome name)

theorem report_of_recording
    {call : Call}
    (h : ∀ tracer ∈ call.node.tracer?, ∃ name, tracer = .recording name)
    (journal : Journal) :
    (report journal call).toList = journal.toList ++ call.entry?.toList := by
  rw [report, entry?, outcome?]
  cases call.reading with
  | none => cases call.node.tracer?.bind Tracer.name <;> simp
  | some r =>
      rw [Option.elim_some, Option.map_some, Node.tell]
      cases htracer : call.node.tracer? with
      | none => simp
      | some tracer =>
          obtain ⟨name, rfl⟩ := h tracer htracer
          rw [Option.elim_some, Tracer.notify_recording, Array.toList_push]
          rfl

theorem foldl_report_of_recording
    {calls : List Call}
    (h : ∀ call ∈ calls,
      ∀ tracer ∈ call.node.tracer?, ∃ name, tracer = .recording name)
    (journal : Journal) :
    (calls.foldl report journal).toList =
      journal.toList ++ calls.filterMap entry? := by
  induction calls generalizing journal with
  | nil => rw [List.foldl_nil, List.filterMap_nil, List.append_nil]
  | cons call rest ih =>
      rw [List.forall_mem_cons] at h
      rw [List.foldl_cons, ih h.2, report_of_recording h.1, List.append_assoc,
        List.filterMap_cons]
      cases call.entry? with
      | none => rfl
      | some entry => rfl

end Call

namespace Node

/-- Every modifier in the tree has a recording tracer, and every explosion has a
threshold, so that it never asks for bounds in a roll. -/
structure RecordsRolls (node : Node) : Prop where
  recorders : ∀ part,
    Occurs part node → ∀ tracer ∈ part.tracer?, ∃ name, tracer = .recording name
  thresholds : ∀ id tracer comparator inner,
    ¬Occurs (explode id tracer comparator none inner) node

variable {engine : Engine σ} {node : Node}

theorem RecordsRolls.of_children
    (hrecorder : ∀ tracer ∈ node.tracer?, ∃ name, tracer = .recording name)
    (hthreshold : ∀ id tracer comparator inner,
      node ≠ explode id tracer comparator none inner)
    (hchildren : ∀ child ∈ node.children, child.RecordsRolls) :
    node.RecordsRolls where
  recorders part hpart := by
    cases hpart with
    | here => exact hrecorder
    | inside hpart hchild => exact (hchildren _ hchild).recorders _ hpart
  thresholds id tracer comparator inner hpart := by
    cases hpart with
    | here => exact hthreshold _ _ _ _ rfl
    | inside hpart hchild => exact (hchildren _ hchild).thresholds _ _ _ _ hpart

/-- A roll only returns outcomes of its node. -/
theorem outcome_of_run_roll
    {t : Table σ} {o : Outcome}
    (h : (run (node.roll engine) t).1 = .ok o) :
    o = node.outcome .roll o.toReading := by
  have hbare : node.bare = node.bare := rfl
  obtain ⟨hagree, -⟩ :=
    agree_of_bare_eq engine hbare (rfl : t.source = t.source)
  rw [h] at hagree
  obtain ⟨r, rfl, -⟩ := hagree
  rfl

/-- A call of a roll comes to the outcome that the roll returns. -/
theorem outcome?_rollCall (engine : Engine σ) (node : Node) (t : Table σ) :
    (rollCall engine node t).outcome? =
      (run (node.roll engine) t).1.toOption := by
  obtain ⟨calls, hcall⟩ := exists_rollCall engine node t
  rw [hcall, Call.outcome?, ofRoll]
  rcases hresult : (run (node.roll engine) t).1 with e | o
  · rfl
  · exact congrArg some (outcome_of_run_roll hresult).symm

/-- If all explosions have thresholds, a roll only starts rolls of parts, and no
bounds are asked for. -/
theorem throughout_rolls
    (engine : Engine σ)
    (h : node.RecordsRolls)
    (t : Table σ) :
    Call.Throughout (fun call =>
      Occurs call.node node ∧ ∃ s, call = rollCall engine call.node s)
      [rollCall engine node t] := by
  refine throughout_rollCall ?_ ?_ (.here node) t
  · intro part hpart s
    obtain ⟨calls, hcall⟩ := exists_rollCall engine part s
    have hnode : (rollCall engine part s).node = part := by
      rw [hcall, ofRoll]
    rw [hnode]
    exact ⟨hpart, s, rfl⟩
  · intro id tracer comparator inner hexplode
    exact absurd hexplode (h.thresholds id tracer comparator inner)

/-- What recorders hear of a roll, if all explosions have thresholds: no bounds
are asked for, and every roll of a modifier that comes to its end is recorded
once, right after the rolls within it, with the outcome that it returns. -/
theorem recorders_hear_completed_rolls
    (hnode : node.RecordsRolls)
    (engine : Engine σ)
    (t : Table σ) :
    let whole := rollCall engine node t
    (run (node.roll engine) t).2.memory.journal.toList =
        t.memory.journal.toList ++ (Call.ended whole).filterMap Call.entry? ∧
      (Call.ended whole).Perm
        ((Call.started whole).filter fun call => call.reading.isSome) ∧
      (∀ call ∈ Call.started whole, call.method = .roll ∧
        Occurs call.node node ∧
        (∃ s, call = rollCall engine call.node s ∧
          call.outcome? = (run (call.node.roll engine) s).1.toOption) ∧
        (call.reading.isSome →
          Call.allEnded call.inner ++ [call] <:+: Call.ended whole)) ∧
      ∀ name o, node.tracer? = some (.recording name) →
        (run (node.roll engine) t).1 = .ok o →
        (run (node.roll engine) t).2.memory.journal.back? =
          some (.outcome name o) := by
  intro whole
  have hrolls : ∀ call ∈ Call.started whole, Occurs call.node node ∧
      ∃ s, call = rollCall engine call.node s := by
    have h := throughout_rolls engine hnode t
    rwa [Call.Throughout, Call.allStarted, Call.allStarted,
      List.append_nil] at h
  have hended : ∀ call ∈ Call.ended whole, call ∈ Call.started whole :=
    fun call hcall =>
      (List.mem_filter.mp ((Call.perm_ended whole).mem_iff.mp hcall)).1
  have hjournal : (run (node.roll engine) t).2.memory.journal.toList =
      t.memory.journal.toList ++ (Call.ended whole).filterMap Call.entry? := by
    rw [reports_roll engine node t, Call.reported, Call.allEnded_singleton]
    apply Call.foldl_report_of_recording
    intro call hcall
    exact hnode.recorders call.node (hrolls call (hended call hcall)).1
  refine ⟨hjournal, Call.perm_ended whole, ?_, ?_⟩
  · intro call hcall
    obtain ⟨hoccurs, s, hroll⟩ := hrolls call hcall
    have hmethod : call.method = .roll := by
      obtain ⟨calls, hcalls⟩ := exists_rollCall engine call.node s
      rw [hroll, hcalls, ofRoll]
    have houtcome :
        call.outcome? = (run (call.node.roll engine) s).1.toOption := by
      have h := outcome?_rollCall engine call.node s
      rwa [← hroll] at h
    refine ⟨hmethod, hoccurs, ⟨s, hroll, houtcome⟩, ?_⟩
    intro hsome
    have hinfix := Call.infix_ended hcall
    rwa [Call.ended_eq, if_pos hsome] at hinfix
  · intro name o htracer hrun
    obtain ⟨calls, hwhole⟩ : ∃ calls, whole = ofRoll engine node calls t :=
      exists_rollCall engine node t
    have hreading : whole.reading = some o.toReading := by
      rw [hwhole, ofRoll, hrun]
      rfl
    have houtcome : whole.outcome? = some o := by
      rw [outcome?_rollCall, hrun]
      rfl
    have hentry : whole.entry? = some (.outcome name o) := by
      rw [Call.entry?, houtcome, hwhole, ofRoll, htracer]
      rfl
    have hlast : Call.ended whole = Call.allEnded whole.inner ++ [whole] := by
      rw [Call.ended_eq, hreading]
      rfl
    rw [← Array.getLast?_toList, hjournal, hlast, List.filterMap_append,
      ← List.append_assoc, List.filterMap_cons, hentry]
    exact List.getLast?_concat

/-- The second of two explosions is broken off: only the first one is
recorded. -/
theorem broken_off_explosion_is_not_recorded :
    ∃ node : Node, node.RecordsRolls ∧ node.render = "(D6!=6+D6!=6)KH1".toList ∧
      ∃ u,
        run (node.roll Engine.script) ⟨Memory.empty, [6, 2, 6], #[]⟩ =
          (.error .exhausted, u) ∧
        u.memory.journal.toList = [.outcome "first".toList
          ⟨⟨8, "6 + 2".toList⟩, some ⟨1, "D6!=6".toList⟩, .roll⟩] := by
  have hdie (id : NodeId) : (die id (.sided 6)).RecordsRolls :=
    .of_children (by rintro _ ⟨⟩) (by rintro _ _ _ _ ⟨⟩) (by rintro _ ⟨⟩)
  have hexplosion (id : NodeId) (name : Text) (d : NodeId) :
      (explode id (.recording name) .equal (some 6)
        (die d (.sided 6))).RecordsRolls := by
    refine .of_children ?_ (by rintro _ _ _ _ ⟨⟩) ?_
    · rintro _ ⟨⟩
      exact ⟨name, rfl⟩
    · rw [children, List.forall_mem_singleton]
      exact hdie d
  have hpool :
      (pool 4
        [explode 1 (.recording "first".toList) .equal (some 6)
          (die 0 (.sided 6)),
        explode 3 (.recording "second".toList) .equal (some 6)
          (die 2 (.sided 6))]).RecordsRolls := by
    refine .of_children (by rintro _ ⟨⟩) (by rintro _ _ _ _ ⟨⟩) ?_
    rw [children, List.forall_mem_cons, List.forall_mem_singleton]
    exact ⟨hexplosion _ _ _, hexplosion _ _ _⟩
  have hselection {inner : Node} (h : inner.RecordsRolls) :
      (dropKeep 5 (.recording "chosen".toList) .keepHighest 1
        inner).RecordsRolls := by
    refine .of_children ?_ (by rintro _ _ _ _ ⟨⟩) ?_
    · rintro _ ⟨⟩
      exact ⟨_, rfl⟩
    · rw [children, List.forall_mem_singleton]
      exact h
  have hjournal :=
    (recorders_hear_completed_rolls (hselection hpool) Engine.script
      ⟨Memory.empty, [6, 2, 6], #[]⟩).1
  exact ⟨_, hselection hpool, by rfl, (run _ _).2, rfl, hjournal.trans (by rfl)⟩

end Node
end DiceNotation
