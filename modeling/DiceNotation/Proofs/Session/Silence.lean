import DiceNotation.Proofs.Node.Bare
import DiceNotation.Proofs.Roll.Table
import DiceNotation.Proofs.Session.Matching

/-!
# Silence

A silenced node has the same identities and parameters, but only tracers that
keep nothing.  Bounds and rolls of a node and of the silenced node match: they
give the same results and leave the same traces, and only the journals differ.
-/

namespace DiceNotation

namespace Memory

/-- The same memory with an empty journal. -/
def silenced (m : Memory) : Memory :=
  { m with journal := #[] }

end Memory

namespace Node

mutual

/-- The same node with silent tracers. -/
def silenced : Node → Node
  | die id d => die id d
  | pool id items => pool id (silencedItems items)
  | arithmetic id _ op operand inner =>
      arithmetic id Tracer.silent op operand (silenced inner)
  | dropKeep id _ selection threshold inner =>
      dropKeep id Tracer.silent selection threshold (silenced inner)
  | explode id _ comparator threshold inner =>
      explode id Tracer.silent comparator threshold (silenced inner)

/-- The same nodes with silent tracers. -/
def silencedItems : List Node → List Node
  | [] => []
  | item :: rest => silenced item :: silencedItems rest

end

theorem silencedItems_eq_map (items : List Node) :
    silencedItems items = items.map silenced := by
  induction items with
  | nil => rfl
  | cons item rest ih => rw [silencedItems, ih, List.map_cons]

theorem silenced_pool (id : NodeId) (items : List Node) :
    (pool id items).silenced = pool id (items.map silenced) := by
  rw [silenced, silencedItems_eq_map]

/-! ## What does not depend on tracers -/

@[simp]
theorem id_silenced (node : Node) : node.silenced.id = node.id := by
  cases node <;> rfl

@[simp]
theorem listedFaces_silenced (node : Node) :
    node.silenced.listedFaces = node.listedFaces := by
  cases node <;> rfl

theorem members_silenced (node : Node) :
    node.silenced.members = node.members.map silenced := by
  cases node with
  | pool id items =>
      rw [silenced_pool]
      rfl
  | _ => rfl

theorem children_silenced (node : Node) :
    node.silenced.children = node.children.map silenced := by
  cases node with
  | pool id items =>
      rw [silenced_pool]
      rfl
  | _ => rfl

theorem withId_silenced (id : NodeId) (node : Node) :
    (node.withId id).silenced = node.silenced.withId id := by
  cases node <;> rfl

theorem retraced?_silenced (id : NodeId) (tracer : Tracer) (node : Node) :
    (node.retraced? id tracer).map silenced =
      node.silenced.retraced? id Tracer.silent := by
  cases node <;> rfl

/-- A silenced node has the same structure. -/
theorem bare_silenced (node : Node) : node.silenced.bare = node.bare := by
  induction node using induction_members with
  | die id d => rfl
  | pool id items ih =>
      rw [silenced_pool, bare_pool, bare_pool, List.map_map]
      congr 1
      apply List.map_congr_left
      intro item hitem
      rw [Function.comp_apply, ih item hitem]
  | arithmetic id tracer op operand inner ih => rw [silenced, bare, bare, ih]
  | dropKeep id tracer selection threshold inner ih _ =>
      rw [silenced, bare, bare, ih]
  | explode id tracer comparator threshold inner ih _ =>
      rw [silenced, bare, bare, ih]

@[simp]
theorem binding_silenced (node : Node) :
    node.silenced.binding = node.binding := by
  rw [← binding_bare, bare_silenced, binding_bare]

@[simp]
theorem render_silenced (node : Node) : node.silenced.render = node.render := by
  rw [← render_bare, bare_silenced, render_bare]

@[simp]
theorem outcome_silenced (node : Node) (method : Method) (r : Reading) :
    node.silenced.outcome method r = node.outcome method r := by
  rw [outcome, outcome, source, source, id_silenced, render_silenced]

end Node

/-! ## Bounds -/

/-- The second evaluation does with an empty journal what the first one does
with any, and gives a corresponding result. -/
abbrev Evaluation.Silences {α β : Type} (R : α → β → Prop) (x : Evaluation α)
    (y : Evaluation β) : Prop :=
  Matches (fun m n => m.silenced = n) R x y

namespace Memory

theorem silences_setTrace (node : NodeId) (trace : Text) :
    Evaluation.Silences Eq (setTrace node trace) (setTrace node trace) := by
  rintro m _ rfl
  exact ⟨rfl, rfl⟩

theorem silences_newNode : Evaluation.Silences Eq newNode newNode := by
  rintro m _ rfl
  exact ⟨rfl, rfl⟩

theorem silences_copyNode (node : NodeId) :
    Evaluation.Silences Eq (copyNode node) (copyNode node) := by
  rintro m _ rfl
  exact ⟨rfl, rfl⟩

/-- Whatever the tracer keeps or how it fails, only the journal knows. -/
theorem silences_notify (tracer : Tracer) (o : Outcome) :
    Evaluation.Silences Eq (notify tracer o) (notify Tracer.silent o) := by
  rintro m _ rfl
  exact ⟨rfl, rfl⟩

theorem silences_settle
    (node : NodeId)
    {x y : Evaluation Reading}
    (h : Evaluation.Silences Eq x y) :
    Evaluation.Silences Eq (settle node x) (settle node y) :=
  (silences_setTrace node []).bind_eq fun _ => h.bind_eq fun r =>
    (silences_setTrace node r.trace).bind_eq fun _ => .pure rfl

end Memory

namespace Node

open Evaluation Memory

theorem silences_report (node : Node) (tracer : Tracer)
    (method : Method) (r : Reading) :
    Silences Eq (node.report tracer method r)
      (node.silenced.report Tracer.silent method r) := by
  rw [report, report, outcome_silenced]
  exact silences_notify tracer _

theorem silences_boundEach
    {nodes : List Node}
    (h :
      ∀ node ∈ nodes, ∀ e, Silences Eq (node.bound e) (node.silenced.bound e))
    (e : Extreme) :
    Silences Eq (boundEach nodes e) (boundEach (nodes.map silenced) e) := by
  induction nodes with
  | nil => exact .pure rfl
  | cons node rest ih =>
      rw [List.forall_mem_cons] at h
      rw [List.map_cons, boundEach, boundEach]
      exact (h.1 e).bind_eq fun _ => (ih h.2).bind_eq fun _ => .pure rfl

/-- Bounds do not depend on tracers. -/
theorem silences_bound (node : Node) (e : Extreme) :
    Silences Eq (node.bound e) (node.silenced.bound e) := by
  induction node using induction_members generalizing e with
  | die id d => exact silences_settle id (.pure rfl)
  | pool id items ih =>
      rw [silenced_pool, bound, bound]
      exact silences_settle id
        ((silences_boundEach ih e).bind_eq fun _ => .pure rfl)
  | arithmetic id tracer op operand inner ih =>
      rw [silenced, bound, bound, listedFaces_silenced]
      refine silences_settle id ((ih .least).bind_eq fun low => ?_)
      refine (ih .greatest).bind_eq fun high => ?_
      exact (silences_report
        (arithmetic id tracer op operand inner) tracer _ _).bind_eq
        fun _ => .pure rfl
  | dropKeep id tracer selection threshold inner _ ih =>
      rw [silenced, bound_dropKeep, bound_dropKeep, members_silenced]
      refine silences_settle id
        ((silences_boundEach ih e).bind_eq fun values => ?_)
      exact (silences_report
        (dropKeep id tracer selection threshold inner) tracer _ _).bind_eq
        fun _ => .pure rfl
  | explode id tracer comparator threshold inner _ ih =>
      have hreport (method : Method) (r : Reading) :=
        silences_report (explode id tracer comparator threshold inner)
          tracer method r
      cases e with
      | least =>
          rw [silenced, bound_explode_least, bound_explode_least,
            members_silenced]
          refine silences_settle id
            ((silences_boundEach ih .least).bind_eq fun values => ?_)
          exact (hreport _ _).bind_eq fun _ => .pure rfl
      | greatest =>
          rw [silenced]
          exact silences_settle id ((hreport _ _).bind_eq fun _ => .pure rfl)

theorem silences_allExactBounds
    {nodes : List Node}
    (h : ∀ node ∈ nodes,
      Silences Eq node.hasExactBounds node.silenced.hasExactBounds) :
    Silences Eq (allExactBounds nodes)
      (allExactBounds (nodes.map silenced)) := by
  induction nodes with
  | nil => exact .pure rfl
  | cons node rest ih =>
      rw [List.forall_mem_cons] at h
      rw [List.map_cons, allExactBounds, allExactBounds]
      refine h.1.bind_eq fun exact => ?_
      cases exact with
      | true => exact ih h.2
      | false => exact .pure rfl

/-- Neither does their exactness, although bounds may be evaluated for it. -/
theorem silences_hasExactBounds (node : Node) :
    Silences Eq node.hasExactBounds node.silenced.hasExactBounds := by
  induction node using induction_members with
  | die id d => exact .pure rfl
  | pool id items ih =>
      rw [silenced_pool, hasExactBounds, hasExactBounds]
      exact silences_allExactBounds ih
  | arithmetic id tracer op operand inner ih =>
      rw [silenced, hasExactBounds, hasExactBounds, listedFaces_silenced]
      refine ih.bind_eq fun exact => ?_
      split
      · exact .pure rfl
      · split
        · exact .pure rfl
        · refine (silences_bound inner .least).bind_eq fun low => ?_
          split
          · exact .pure rfl
          · exact (silences_bound inner .greatest).bind_eq fun high => .pure rfl
  | dropKeep id tracer selection threshold inner ih _ =>
      rw [silenced, hasExactBounds, hasExactBounds]
      exact ih
  | explode id tracer comparator threshold inner _ _ => exact .pure rfl

end Node

/-! ## Rolls -/

namespace Table

variable {σ : Type}

/-- The same table with an empty journal. -/
def silenced (t : Table σ) : Table σ :=
  { t with memory := t.memory.silenced }

end Table

/-- The second roll does with an empty journal what the first one does with any,
and gives the same result or is broken off alike. -/
abbrev Rolling.Silences {σ α : Type} (x y : Rolling σ α) : Prop :=
  MatchesOrFails (fun t u => t.silenced = u) Eq x y

namespace Rolling

variable {σ α : Type}

theorem silences_ofEvaluation
    {x y : Evaluation α}
    (h : Evaluation.Silences Eq x y) :
    Silences (σ := σ) (ofEvaluation x) (ofEvaluation y) := by
  rintro ⟨memory, source, requests⟩ _ rfl
  obtain ⟨hresult, hmemory⟩ := h (s := memory) rfl
  refine ⟨.ok hresult, ?_⟩
  exact congrArg (fun memory => Table.mk memory source requests) hmemory

theorem silences_draw (engine : Engine σ) (low high : Int) :
    Silences (draw engine low high) (draw engine low high) := by
  rintro t _ rfl
  change Agree Eq (run (draw engine low high) t).1
    (run (draw engine low high) t.silenced).1 ∧
    (run (draw engine low high) t).2.silenced =
      (run (draw engine low high) t.silenced).2
  have hsource : t.silenced.source = t.source := rfl
  rw [run_draw, run_draw, hsource]
  cases engine.answer low high t.source with
  | none => exact ⟨.error _, rfl⟩
  | some answer => exact ⟨.ok rfl, rfl⟩

theorem silences_settle
    (node : NodeId)
    {x y : Rolling σ Outcome}
    (h : Silences x y) :
    Silences (settle node x) (settle node y) :=
  (silences_ofEvaluation (Memory.silences_setTrace node [])).bind_eq fun _ =>
    h.bind_eq fun o => (silences_ofEvaluation
      (Memory.silences_setTrace node o.trace)).bind_eq fun _ => .pure rfl

theorem silences_repeatUpTo
    {x y : Rolling σ Outcome}
    (h : Silences x y)
    (again : Outcome → Bool)
    (rounds : Nat) :
    Silences (repeatUpTo again x rounds) (repeatUpTo again y rounds) := by
  induction rounds with
  | zero => exact .throw _
  | succ rounds ih =>
      rw [repeatUpTo, repeatUpTo]
      refine h.bind_eq fun o => ?_
      split
      · exact ih.bind_eq fun rest => .pure rfl
      · exact .pure rfl

/-- The number of rounds hangs on the engine alone. -/
theorem silences_repeatWhile
    {x y : Rolling σ Outcome}
    (h : Silences x y)
    (engine : Engine σ)
    (again : Outcome → Bool) :
    Silences (repeatWhile engine again x) (repeatWhile engine again y) := by
  rintro t _ rfl
  exact silences_repeatUpTo h again (engine.remaining t.source + 1) rfl

end Rolling

namespace Node

open Rolling

variable {σ : Type}

theorem silences_complete (node : Node) (tracer : Tracer) (r : Reading) :
    Silences (σ := σ) (node.complete tracer r)
      (node.silenced.complete Tracer.silent r) := by
  rw [complete, complete, outcome_silenced]
  exact (silences_ofEvaluation
    (silences_report node tracer .roll r)).bind_eq fun _ => .pure rfl

theorem silences_rollExploding
    {node : Node} {x y : Rolling σ Outcome}
    (h : Silences x y)
    (engine : Engine σ) (comparator : Comparator) (threshold : Option Int) :
    Silences (rollExploding engine comparator threshold node x)
      (rollExploding engine comparator threshold node.silenced y) := by
  have hlimit : Silences (σ := σ) (explosionLimit threshold node)
      (explosionLimit threshold node.silenced) := by
    cases threshold with
    | none => exact silences_ofEvaluation (silences_bound node .greatest)
    | some t => exact .pure rfl
  exact hlimit.bind_eq fun limit => silences_repeatWhile h engine _

theorem silences_rollEach
    {engine : Engine σ} {nodes : List Node}
    (h :
      ∀ node ∈ nodes, Silences (roll engine node) (roll engine node.silenced)) :
    Silences (rollEach engine nodes)
      (rollEach engine (nodes.map silenced)) := by
  induction nodes with
  | nil => exact .pure rfl
  | cons node rest ih =>
      rw [List.forall_mem_cons] at h
      rw [List.map_cons, rollEach, rollEach]
      exact h.1.bind_eq fun _ => (ih h.2).bind_eq fun _ => .pure rfl

theorem silences_explodeEach
    {engine : Engine σ} {nodes : List Node}
    (h :
      ∀ node ∈ nodes, Silences (roll engine node) (roll engine node.silenced))
    (comparator : Comparator) (threshold : Option Int) :
    Silences (explodeEach engine comparator threshold nodes)
      (explodeEach engine comparator threshold (nodes.map silenced)) := by
  induction nodes with
  | nil => exact .pure rfl
  | cons node rest ih =>
      rw [List.forall_mem_cons] at h
      rw [List.map_cons, explodeEach, explodeEach]
      exact (silences_rollExploding h.1 engine
        comparator threshold).bind_eq fun _ =>
          (ih h.2).bind_eq fun _ => .pure rfl

/-- Rolls do not depend on tracers. -/
theorem silences_roll (engine : Engine σ) (node : Node) :
    Silences (roll engine node) (roll engine node.silenced) := by
  induction node using induction_members with
  | die id d =>
      exact silences_settle id
        ((silences_draw engine _ _).bind_eq fun _ => .pure rfl)
  | pool id items ih =>
      have houtcome (r : Reading) := outcome_silenced (pool id items) .roll r
      rw [silenced_pool] at houtcome ⊢
      rw [roll, roll]
      refine silences_settle id
        ((silences_rollEach ih).bind_eq fun outcomes => ?_)
      rw [houtcome]
      exact .pure rfl
  | arithmetic id tracer op operand inner ih =>
      rw [silenced, roll, roll]
      exact silences_settle id (ih.bind_eq fun o =>
        silences_complete (arithmetic id tracer op operand inner) tracer _)
  | dropKeep id tracer selection threshold inner _ ih =>
      rw [silenced, roll_dropKeep, roll_dropKeep, members_silenced]
      exact silences_settle id ((silences_rollEach ih).bind_eq fun outcomes =>
        silences_complete
          (dropKeep id tracer selection threshold inner) tracer _)
  | explode id tracer comparator threshold inner _ ih =>
      rw [silenced, roll_explode, roll_explode, members_silenced]
      exact silences_settle id
        ((silences_explodeEach ih comparator threshold).bind_eq
          fun outcomes => silences_complete
            (explode id tracer comparator threshold inner) tracer _)

end Node
end DiceNotation
