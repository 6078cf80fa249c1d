import DiceNotation.Proofs.History.Effects

/-!
# What rolls leave behind

A roll makes the calls that are listed for it, whatever the engine answers and
wherever the roll is broken off.
-/

namespace DiceNotation

variable {σ : Type}

namespace Rolling

variable {α β : Type} {nodes others : List Node} {calls : Table σ → List Call}

/-- At every table, the computation makes the calls listed for this table. -/
def Causes (nodes : List Node) (x : Rolling σ α)
    (calls : Table σ → List Call) : Prop :=
  ∀ t, Caused nodes (calls t) t.memory (run x t).2.memory

theorem causes_pure (nodes : List Node) (a : α) :
    Causes (σ := σ) nodes (pure a) fun _ => [] :=
  fun t => .refl nodes t.memory

theorem causes_throw (nodes : List Node) (e : Abort) :
    Causes nodes (throw e : Rolling σ α) fun _ => [] :=
  fun t => .refl nodes t.memory

theorem causes_draw (nodes : List Node) (engine : Engine σ) (low high : Int) :
    Causes nodes (draw engine low high) fun _ => [] := by
  intro t
  rw [run_draw]
  cases engine.answer low high t.source with
  | none => exact .refl nodes t.memory
  | some answer => exact .refl nodes t.memory

theorem causes_ofEvaluation
    {x : Evaluation α} {made : List Call}
    (h : Evaluation.Causes nodes x made) :
    Causes (σ := σ) nodes (ofEvaluation x) fun _ => made :=
  fun t => h t.memory

theorem Causes.mono
    {x : Rolling σ α}
    (h : Causes nodes x calls)
    (hsub : ∀ node ∈ nodes, Node.Present others node) :
    Causes others x calls :=
  fun t => (h t).mono hsub

theorem Causes.bind
    {x : Rolling σ α} {f : α → Rolling σ β} {more : α → Table σ → List Call}
    (hx : Causes nodes x calls)
    (hf : ∀ a, Causes nodes (f a) (more a)) :
    Causes nodes (x >>= f) fun t => calls t ++ followUp x more t := by
  intro t
  have hfirst := hx t
  dsimp only
  rw [run_bind, followUp]
  rcases hrun : run x t with ⟨e | a, u⟩
  · rw [hrun] at hfirst
    exact hfirst.trans (.refl nodes _)
  · rw [hrun] at hfirst
    exact hfirst.trans (hf a u)

/-- What comes last may do without calls. -/
theorem Causes.finish
    {x : Rolling σ α} {f : α → Rolling σ β}
    (hx : Causes nodes x calls)
    (hf : ∀ a, Causes nodes (f a) fun _ => []) :
    Causes nodes (x >>= f) calls := by
  intro t
  have h : Causes nodes (x >>= f)
      fun t => calls t ++ followUp x (fun _ _ => []) t := hx.bind hf
  have ht := h t
  dsimp only at ht
  rwa [followUp_nil, List.append_nil] at ht

theorem Causes.settle
    {node : Node}
    (hnode : node.Ordered)
    {engine : Engine σ} {x : Rolling σ Outcome}
    (hroll : node.roll engine = Rolling.settle node.id x)
    (hx : Causes node.children x calls) :
    Causes [node] (node.roll engine)
      fun t => [Node.ofRoll engine node calls t] := by
  intro t
  have hinner := hx (node.opened t)
  have hrun := run_settle node.id x t
  rw [← hroll] at hrun
  dsimp only
  rw [Node.ofRoll, hrun]
  rcases hresult : run x (node.opened t) with ⟨e | o, u⟩
  · rw [hresult] at hinner
    rw [Node.opened] at hresult
    rw [hresult]
    exact hinner.brokenOff hnode .roll
  · rw [hresult] at hinner
    rw [Node.opened] at hresult
    rw [hresult]
    exact hinner.ended hnode .roll o.toReading

end Rolling

namespace Node

open Rolling

variable {engine : Engine σ} {node : Node} {nodes : List Node}

theorem causes_complete (node : Node) (tracer : Tracer) (r : Reading) :
    Causes (σ := σ) nodes (node.complete tracer r) fun _ => [] :=
  (causes_ofEvaluation (causes_report node tracer .roll r)).finish fun _ =>
    causes_pure nodes _

theorem causes_repeatUpTo
    {roll : Rolling σ Outcome} {call : Table σ → Call}
    (h : Causes nodes roll fun t => [call t])
    (again : Outcome → Bool)
    (rounds : Nat) :
    Causes nodes (repeatUpTo again roll rounds)
      (roundCalls again roll call rounds) := by
  induction rounds with
  | zero => exact causes_throw nodes .endless
  | succ rounds ih =>
      apply h.bind
      intro o
      cases again o with
      | true => exact ih.finish fun rest => causes_pure nodes _
      | false => exact causes_pure nodes _

theorem causes_rollExploding
    {call : Table σ → Call}
    (hnode : node.Ordered)
    (h : Causes [node] (node.roll engine) fun t => [call t])
    (comparator : Comparator) (threshold : Option Int) :
    Causes [node]
      (rollExploding engine comparator threshold node (node.roll engine))
      (burstCalls engine comparator threshold node call) := by
  have hlimit : Causes (σ := σ) [node] (explosionLimit threshold node) fun _ =>
      if threshold.isNone then [boundCall node .greatest] else [] := by
    cases threshold with
    | none => exact causes_ofEvaluation (causes_bound hnode .greatest)
    | some t => exact causes_pure [node] t
  apply hlimit.bind
  intro limit t
  exact causes_repeatUpTo h _ (engine.remaining t.source + 1) t

theorem causes_rollEach
    (h : ∀ node ∈ nodes,
      Causes [node] (node.roll engine) fun t => [rollCall engine node t]) :
    Causes nodes (rollEach engine nodes) (eachCalls engine nodes) := by
  induction nodes with
  | nil => exact causes_pure [] []
  | cons node rest ih =>
      rw [List.forall_mem_cons] at h
      have hfirst := h.1.mono (present_head node rest)
      have hrest := (ih h.2).mono (present_tail node rest)
      rw [rollEach, eachCalls]
      exact hfirst.bind fun o => hrest.finish fun outcomes => causes_pure _ _

theorem causes_explodeEach
    (comparator : Comparator) (threshold : Option Int)
    (hordered : ∀ node ∈ nodes, node.Ordered)
    (h : ∀ node ∈ nodes,
      Causes [node] (node.roll engine) fun t => [rollCall engine node t]) :
    Causes nodes (explodeEach engine comparator threshold nodes)
      (explosionCalls engine comparator threshold nodes) := by
  induction nodes with
  | nil => exact causes_pure [] []
  | cons node rest ih =>
      rw [List.forall_mem_cons] at h hordered
      have hburst := causes_rollExploding hordered.1 h.1 comparator threshold
      have hfirst := hburst.mono (present_head node rest)
      have hrest := (ih hordered.2 h.2).mono (present_tail node rest)
      rw [explodeEach, explosionCalls]
      exact hfirst.bind fun o => hrest.finish fun outcomes => causes_pure _ _

/-- Rolling a node makes the call of the roll. -/
theorem causes_roll
    (engine : Engine σ)
    (h : node.Ordered) :
    Causes [node] (node.roll engine) fun t => [rollCall engine node t] := by
  induction node using induction_members with
  | die id d =>
      have hdraw := causes_draw (die id d).children engine d.range.1 d.range.2
      rw [rollCall]
      exact Causes.settle h (roll.eq_def _ _)
        (hdraw.finish fun n => causes_pure _ _)
  | pool id items ih =>
      have hitems := causes_rollEach fun item hitem =>
        ih item hitem (h.child hitem)
      rw [rollCall]
      exact Causes.settle h (roll.eq_def _ _)
        (hitems.finish fun outcomes => causes_pure _ _)
  | arithmetic id tracer op operand inner ih =>
      have hinner := ih (h.child (List.mem_singleton_self inner))
      rw [rollCall]
      exact Causes.settle h (roll.eq_def _ _)
        (hinner.finish fun o => causes_complete _ _ _)
  | dropKeep id tracer selection threshold inner _ ih =>
      have hchild := present_members inner
      have hmembers := causes_rollEach fun member hmember =>
        ih member hmember (h.of_present (hchild member hmember))
      rw [rollCall_dropKeep]
      exact Causes.settle h (roll_dropKeep _ _ _ _ _ _)
        ((hmembers.mono hchild).finish
          fun outcomes => causes_complete _ _ _)
  | explode id tracer comparator threshold inner _ ih =>
      have hchild := present_members inner
      have hmembers := causes_explodeEach comparator threshold
        (fun member hmember => h.of_present (hchild member hmember))
        (fun member hmember =>
          ih member hmember (h.of_present (hchild member hmember)))
      rw [rollCall_explode]
      exact Causes.settle h (roll_explode _ _ _ _ _ _)
        ((hmembers.mono hchild).finish
          fun outcomes => causes_complete _ _ _)

end Node
end DiceNotation
