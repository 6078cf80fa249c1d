import DiceNotation.Proofs.History.Rolls

/-!
# What tracers are told

A modifier tells its tracer about every evaluation that comes to its end, at the
moment when it does.  So tracers hear of the calls that an evaluation makes in
the order in which these end: of the calls within a call before the call itself,
and never of a call that was broken off.
-/

namespace DiceNotation

open Rolling Node

variable {σ : Type}

namespace Node

/-- The tracer of a modifier; other nodes have none. -/
def tracer? : Node → Option Tracer
  | die _ _ => none
  | pool _ _ => none
  | arithmetic _ tracer _ _ _ => some tracer
  | dropKeep _ tracer _ _ _ => some tracer
  | explode _ tracer _ _ _ => some tracer

/-- Tells the tracer of a modifier what an evaluation came to. -/
def tell (node : Node) (method : Method) (r : Reading)
    (journal : Journal) : Journal :=
  node.tracer?.elim journal
    fun tracer => tracer.notify (node.outcome method r) journal

end Node

namespace Call

mutual

/-- The call, if it came to its end, and all calls within it that did, in the
order in which they did. -/
def ended : Call → List Call
  | ⟨node, method, reading, inner⟩ =>
      allEnded inner ++
        if reading.isSome then [⟨node, method, reading, inner⟩] else []

/-- The calls and all calls within them that came to their end, in the order in
which they did. -/
def allEnded : List Call → List Call
  | [] => []
  | call :: rest => ended call ++ allEnded rest

end

/-- Tells the tracer of the node what the call came to, unless it was broken
off. -/
def report (journal : Journal) (call : Call) : Journal :=
  call.reading.elim journal fun r => call.node.tell call.method r journal

/-- The journal when all calls that came to their end have been reported. -/
def reported (calls : List Call) (journal : Journal) : Journal :=
  (allEnded calls).foldl report journal

theorem ended_eq (call : Call) :
    ended call = allEnded call.inner ++
      if call.reading.isSome then [call] else [] := by
  cases call
  rw [ended]

theorem allEnded_append (calls others : List Call) :
    allEnded (calls ++ others) = allEnded calls ++ allEnded others := by
  induction calls with
  | nil => rfl
  | cons call rest ih =>
      rw [List.cons_append, allEnded, allEnded, ih, List.append_assoc]

theorem allEnded_singleton (call : Call) : allEnded [call] = ended call := by
  rw [allEnded, allEnded, List.append_nil]

theorem reported_append (calls others : List Call) (journal : Journal) :
    reported (calls ++ others) journal =
      reported others (reported calls journal) := by
  rw [reported, allEnded_append, List.foldl_append, reported, reported]

/-- A call is reported after the calls within it. -/
theorem reported_singleton (call : Call) (journal : Journal) :
    reported [call] journal = report (reported call.inner journal) call := by
  rw [reported, allEnded_singleton, ended_eq, List.foldl_append, reported]
  cases hreading : call.reading with
  | none => rw [report, hreading]; rfl
  | some r => rfl

end Call

/-! ## Evaluations -/

namespace Evaluation

variable {α β : Type} {calls more : List Call} {node : Node}

/-- Whatever the memory holds, tracers are told about the calls. -/
def Reports (x : Evaluation α) (calls : List Call) : Prop :=
  ∀ m, (x.run m).2.journal = Call.reported calls m.journal

/-- Whatever the memory holds, tracers are told about the calls, and last the
one of the node is told about the reading. -/
def Concludes (node : Node) (method : Method) (x : Evaluation Reading)
    (calls : List Call) : Prop :=
  ∀ m, (x.run m).2.journal =
    node.tell method (x.run m).1 (Call.reported calls m.journal)

theorem reports_pure (a : α) : Reports (pure a) [] :=
  fun _ => rfl

theorem Reports.bind
    {x : Evaluation α} {f : α → Evaluation β}
    (hx : Reports x calls)
    (hf : ∀ a, Reports (f a) more) :
    Reports (x >>= f) (calls ++ more) := by
  intro m
  have hrun : (x >>= f).run m = (f (x.run m).1).run (x.run m).2 := rfl
  rw [hrun, hf, hx, Call.reported_append]

/-- What comes last may do without reports. -/
theorem Reports.finish
    {x : Evaluation α} {f : α → Evaluation β}
    (hx : Reports x calls)
    (hf : ∀ a, Reports (f a) []) :
    Reports (x >>= f) calls := by
  have h := hx.bind hf
  rwa [List.append_nil] at h

theorem concludes_pure
    (node : Node)
    (h : node.tracer? = none)
    (method : Method) (r : Reading) :
    Concludes node method (pure r) [] := by
  intro m
  rw [Node.tell, h]
  rfl

theorem concludes_report
    (node : Node)
    {tracer : Tracer}
    (h : node.tracer? = some tracer)
    (method : Method) (r : Reading) :
    Concludes node method (do node.report tracer method r; return r) [] := by
  intro m
  rw [Node.tell, h]
  rfl

theorem Reports.before
    {x : Evaluation α} {f : α → Evaluation Reading} {method : Method}
    (hx : Reports x calls)
    (hf : ∀ a, Concludes node method (f a) more) :
    Concludes node method (x >>= f) (calls ++ more) := by
  intro m
  have hrun : (x >>= f).run m = (f (x.run m).1).run (x.run m).2 := rfl
  rw [hrun, hf, hx, Call.reported_append]

/-- All calls come before the end. -/
theorem Reports.conclude
    {x : Evaluation α} {f : α → Evaluation Reading} {method : Method}
    (hx : Reports x calls)
    (hf : ∀ a, Concludes node method (f a) []) :
    Concludes node method (x >>= f) calls := by
  have h := hx.before hf
  rwa [List.append_nil] at h

/-- The evaluation of a node is reported after the calls that it makes. -/
theorem Concludes.settle
    {x : Evaluation Reading} {method : Method} {r : Reading}
    (hx : Concludes node method x calls)
    (hr : Gives x r) :
    Reports (Memory.settle node.id x) [⟨node, method, some r, calls⟩] := by
  intro m
  have hjournal := hx { m with traces := m.traces.set node.id [] }
  rw [hr] at hjournal
  rw [Call.reported_singleton]
  exact hjournal

end Evaluation

namespace Node

open Evaluation

variable {nodes : List Node}

theorem reports_boundEach
    {e : Extreme}
    (h : ∀ node ∈ nodes, Evaluation.Reports (node.bound e) [boundCall node e]) :
    Evaluation.Reports (boundEach nodes e) (boundCalls nodes e) := by
  induction nodes with
  | nil => exact reports_pure []
  | cons node rest ih =>
      rw [List.forall_mem_cons] at h
      exact h.1.bind fun value => (ih h.2).finish fun values => reports_pure _

/-- Asking for a bound is reported as the call of the bound. -/
theorem reports_bound (node : Node) (e : Extreme) :
    Evaluation.Reports (node.bound e) [boundCall node e] := by
  have hvalues (nodes : List Node) (e : Extreme) :
      (boundEach nodes e).Gives (nodes.map fun node => node.extreme e) :=
    gives_boundEach fun node _ => gives_bound node e
  induction node using induction_members generalizing e with
  | die id d =>
      rw [bound, boundCall]
      exact (concludes_pure (die id d) rfl _ _).settle (gives_pure _)
  | pool id items ih =>
      rw [bound, boundCall]
      have hitems := reports_boundEach fun item hitem => ih item hitem e
      have hend := hitems.conclude fun values =>
        concludes_pure (pool id items) rfl e.method
          (.total (values.map Reading.ofValue))
      exact hend.settle ((hvalues items e).bind (gives_pure _))
  | arithmetic id tracer op operand inner ih =>
      rw [bound, boundCall]
      have hend :=
        (ih .least).before fun low => (ih .greatest).conclude fun high =>
          concludes_report (arithmetic id tracer op operand inner) rfl e.method
            ((Reading.ofValue
              (op.boundAt operand inner.listedFaces low high e)).operate
                op operand)
      refine hend.settle ((gives_bound inner .least).bind ?_)
      exact (gives_bound inner .greatest).bind (gives_reported _ _ _ _)
  | dropKeep id tracer selection threshold inner _ ih =>
      rw [bound_dropKeep, boundCall_dropKeep]
      have hmembers :=
        reports_boundEach fun member hmember => ih member hmember e
      have hend := hmembers.conclude fun values =>
        concludes_report (dropKeep id tracer selection threshold inner)
          rfl e.method
          (.total ((selection.choose threshold values).map Reading.ofValue))
      exact hend.settle ((hvalues inner.members e).bind
        (gives_reported _ _ _ _))
  | explode id tracer comparator threshold inner _ ih =>
      cases e with
      | greatest =>
          rw [bound_explode_greatest, boundCall_explode_greatest]
          exact (concludes_report (explode id tracer comparator
            threshold inner) rfl _ _).settle (gives_reported _ _ _ _)
      | least =>
          rw [bound_explode_least, boundCall_explode_least]
          have hmembers :=
            reports_boundEach fun member hmember => ih member hmember .least
          have hend := hmembers.conclude fun values =>
            concludes_report (explode id tracer comparator threshold inner) rfl
              .minimum (.total (values.map Reading.ofValue))
          exact hend.settle ((hvalues inner.members .least).bind
            (gives_reported _ _ _ _))

end Node

/-! ## Rolls -/

namespace Rolling

variable {α β : Type} {engine : Engine σ} {node : Node}
  {calls : Table σ → List Call}

/-- At every table, tracers are told about the calls listed for this table. -/
def Reports (x : Rolling σ α) (calls : Table σ → List Call) : Prop :=
  ∀ t, (run x t).2.memory.journal = Call.reported (calls t) t.memory.journal

/-- At every table, tracers are told about the calls listed for this table, and
last the one of the node is told about the outcome, if there is one. -/
def Concludes (node : Node) (x : Rolling σ Outcome)
    (calls : Table σ → List Call) : Prop :=
  ∀ t, (run x t).2.memory.journal =
    ((run x t).1.toOption.map Outcome.toReading).elim
      (Call.reported (calls t) t.memory.journal)
      fun r => node.tell .roll r (Call.reported (calls t) t.memory.journal)

theorem reports_pure (a : α) : Reports (σ := σ) (pure a) fun _ => [] :=
  fun _ => rfl

theorem reports_throw (e : Abort) :
    Reports (throw e : Rolling σ α) fun _ => [] :=
  fun _ => rfl

theorem reports_draw (engine : Engine σ) (low high : Int) :
    Reports (draw engine low high) fun _ => [] := by
  intro t
  rw [run_draw]
  cases engine.answer low high t.source with
  | none => rfl
  | some answer => rfl

theorem reports_ofEvaluation
    {x : Evaluation α} {made : List Call}
    (h : Evaluation.Reports x made) :
    Reports (σ := σ) (ofEvaluation x) fun _ => made :=
  fun t => h t.memory

theorem Reports.bind
    {x : Rolling σ α} {f : α → Rolling σ β} {more : α → Table σ → List Call}
    (hx : Reports x calls)
    (hf : ∀ a, Reports (f a) (more a)) :
    Reports (x >>= f) fun t => calls t ++ followUp x more t := by
  intro t
  have hfirst := hx t
  dsimp only
  rw [run_bind, followUp, Call.reported_append, ← hfirst]
  rcases run x t with ⟨e | a, u⟩
  · rfl
  · exact hf a u

/-- What comes last may do without reports. -/
theorem Reports.finish
    {x : Rolling σ α} {f : α → Rolling σ β}
    (hx : Reports x calls)
    (hf : ∀ a, Reports (f a) fun _ => []) :
    Reports (x >>= f) calls := by
  intro t
  have h : Reports (x >>= f) fun t => calls t ++ followUp x (fun _ _ => []) t :=
    hx.bind hf
  have ht := h t
  dsimp only at ht
  rwa [followUp_nil, List.append_nil] at ht

theorem concludes_pure
    (node : Node)
    (h : node.tracer? = none)
    (o : Outcome) :
    Concludes (σ := σ) node (pure o) fun _ => [] := by
  intro t
  change t.memory.journal = node.tell .roll o.toReading t.memory.journal
  rw [Node.tell, h]
  rfl

theorem concludes_complete
    (node : Node)
    {tracer : Tracer}
    (h : node.tracer? = some tracer)
    (r : Reading) :
    Concludes (σ := σ) node (node.complete tracer r) fun _ => [] := by
  intro t
  change tracer.notify (node.outcome .roll r) t.memory.journal =
    node.tell .roll r t.memory.journal
  rw [Node.tell, h]
  rfl

theorem Reports.conclude
    {x : Rolling σ α} {f : α → Rolling σ Outcome}
    (hx : Reports x calls)
    (hf : ∀ a, Concludes node (f a) fun _ => []) :
    Concludes node (x >>= f) calls := by
  intro t
  have hfirst := hx t
  rw [run_bind, ← hfirst]
  rcases run x t with ⟨e | a, u⟩
  · rfl
  · exact hf a u

/-- The roll of a node is reported after the calls that it makes, unless it is
broken off. -/
theorem Concludes.settle
    {x : Rolling σ Outcome}
    (hx : Concludes node x calls)
    (hroll : node.roll engine = Rolling.settle node.id x) :
    Reports (node.roll engine) fun t => [ofRoll engine node calls t] := by
  intro t
  have hinner := hx (node.opened t)
  have hrun := run_settle node.id x t
  rw [← hroll] at hrun
  dsimp only
  rw [Call.reported_singleton, ofRoll, hrun]
  rw [Node.opened] at hinner ⊢
  rcases hresult : run x
    { t with memory.traces := t.memory.traces.set node.id [] } with ⟨e | o, u⟩
  · rw [hresult] at hinner
    exact hinner
  · rw [hresult] at hinner
    exact hinner

end Rolling

namespace Node

variable {engine : Engine σ} {node : Node} {nodes : List Node}

theorem reports_repeatUpTo
    {roll : Rolling σ Outcome} {call : Table σ → Call}
    (h : Reports roll fun t => [call t])
    (again : Outcome → Bool)
    (rounds : Nat) :
    Reports (repeatUpTo again roll rounds)
      (roundCalls again roll call rounds) := by
  induction rounds with
  | zero => exact reports_throw .endless
  | succ rounds ih =>
      apply h.bind
      intro o
      cases again o with
      | true => exact ih.finish fun rest => reports_pure _
      | false => exact reports_pure _

theorem reports_rollExploding
    {call : Table σ → Call}
    (h : Reports (node.roll engine) fun t => [call t])
    (comparator : Comparator) (threshold : Option Int) :
    Reports (rollExploding engine comparator threshold node (node.roll engine))
      (burstCalls engine comparator threshold node call) := by
  have hlimit : Reports (σ := σ) (explosionLimit threshold node) fun _ =>
      if threshold.isNone then [boundCall node .greatest] else [] := by
    cases threshold with
    | none => exact reports_ofEvaluation (reports_bound node .greatest)
    | some t => exact reports_pure t
  apply hlimit.bind
  intro limit t
  exact reports_repeatUpTo h _ (engine.remaining t.source + 1) t

theorem reports_rollEach
    (h : ∀ node ∈ nodes,
      Reports (node.roll engine) fun t => [rollCall engine node t]) :
    Reports (rollEach engine nodes) (eachCalls engine nodes) := by
  induction nodes with
  | nil => exact reports_pure []
  | cons node rest ih =>
      rw [List.forall_mem_cons] at h
      rw [rollEach, eachCalls]
      exact h.1.bind fun o => (ih h.2).finish fun outcomes => reports_pure _

theorem reports_explodeEach
    (comparator : Comparator) (threshold : Option Int)
    (h : ∀ node ∈ nodes,
      Reports (node.roll engine) fun t => [rollCall engine node t]) :
    Reports (explodeEach engine comparator threshold nodes)
      (explosionCalls engine comparator threshold nodes) := by
  induction nodes with
  | nil => exact reports_pure []
  | cons node rest ih =>
      rw [List.forall_mem_cons] at h
      have hburst := reports_rollExploding h.1 comparator threshold
      rw [explodeEach, explosionCalls]
      exact hburst.bind fun os => (ih h.2).finish fun others => reports_pure _

/-- Rolling a node is reported as the call of the roll. -/
theorem reports_roll (engine : Engine σ) (node : Node) :
    Reports (node.roll engine) fun t => [rollCall engine node t] := by
  induction node using induction_members with
  | die id d =>
      have hdraw := reports_draw engine d.range.1 d.range.2
      rw [rollCall]
      exact (hdraw.conclude fun n => concludes_pure (die id d) rfl _).settle
        (roll.eq_def _ _)
  | pool id items ih =>
      have hitems := reports_rollEach ih
      rw [rollCall]
      exact (hitems.conclude fun os =>
        concludes_pure (pool id items) rfl _).settle (roll.eq_def _ _)
  | arithmetic id tracer op operand inner ih =>
      rw [rollCall]
      have hend := ih.conclude fun o =>
        concludes_complete (arithmetic id tracer op operand inner) rfl
          (o.toReading.operate op operand)
      exact hend.settle (roll.eq_def _ _)
  | dropKeep id tracer selection threshold inner _ ih =>
      have hmembers := reports_rollEach ih
      rw [rollCall_dropKeep]
      have hend := hmembers.conclude fun os =>
        concludes_complete (dropKeep id tracer selection threshold inner) rfl
          (totalChosen selection threshold os)
      exact hend.settle (roll_dropKeep _ _ _ _ _ _)
  | explode id tracer comparator threshold inner _ ih =>
      have hmembers := reports_explodeEach comparator threshold ih
      rw [rollCall_explode]
      have hend := hmembers.conclude fun os =>
        concludes_complete (explode id tracer comparator threshold inner) rfl
          (totalOf os)
      exact hend.settle (roll_explode _ _ _ _ _ _)

end Node

end DiceNotation
