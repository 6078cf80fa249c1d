import DiceNotation.Proofs.Session.Basic
import DiceNotation.Proofs.Session.Construction

/-!
# Tracers never interfere

Two clients that differ in their tracers only get the same answers to all their
steps, make the same requests to the engine and leave the same traces on all
nodes.  Whatever tracers keep and wherever they fail, nobody else can tell.
-/

namespace DiceNotation
namespace Session

variable {σ : Type}

/-! ## Silent clients -/

/-- The same construction with a silent tracer. -/
def Construction.silenced : Construction → Construction
  | arithmetic inner op operand _ => arithmetic inner op operand Tracer.silent
  | dropKeep inner selection threshold _ =>
      dropKeep inner selection threshold Tracer.silent
  | explode inner comparator threshold _ =>
      explode inner comparator threshold Tracer.silent
  | retrace node _ => retrace node Tracer.silent
  | parse _ text => parse Tracer.silent text
  | construction => construction

/-- The same step with a silent tracer. -/
def Step.silenced : Step σ → Step σ
  | build construction => build construction.silenced
  | step => step

/-- The same session with silent tracers and an empty journal. -/
def silenced (s : Session σ) : Session σ :=
  ⟨s.nodes.map Node.silenced, s.table.silenced⟩

/-- The second computation does in the silenced session what the first one does
in any, and gives the same result. -/
abbrev Silences {α : Type} (x y : StateM (Session σ) α) : Prop :=
  Matches (fun s t => s.silenced = t) Eq x y

theorem getElem?_silenced (nodes : List Node) (place : Nat) :
    (nodes.map Node.silenced)[place]? = nodes[place]?.map Node.silenced :=
  List.getElem?_map

section Constructions

/-- The second node is the first one with silent tracers, if there is one. -/
abbrev AreSilenced (found quiet : Option Node) : Prop :=
  found.map Node.silenced = quiet

theorem silences_some
    {x y : Building Node}
    (h : Building.Silences Node.IsSilenced x y) :
    Building.Silences AreSilenced (x >>= fun node => pure (some node))
      (y >>= fun node => pure (some node)) := by
  refine h.bind ?_
  rintro node _ rfl
  exact .pure rfl

/-- Constructions do not depend on tracers. -/
theorem silences_build (nodes : List Node) (construction : Construction) :
    Building.Silences AreSilenced (construction.build nodes)
      (construction.silenced.build (nodes.map Node.silenced)) := by
  cases construction with
  | sided sides =>
      exact (MatchesOrFails.ofExcept _).bind_eq fun d =>
        silences_some (Build.silences_die d)
  | custom faces =>
      exact (MatchesOrFails.ofExcept _).bind_eq fun d =>
        silences_some (Build.silences_die d)
  | fudge => exact silences_some (Build.silences_die .fudge)
  | pool items =>
      have hitems : items.map (fun i => (nodes.map Node.silenced)[i]?) =
          (items.map fun i => nodes[i]?).map (Option.map Node.silenced) := by
        rw [List.map_map]
        exact List.map_congr_left fun i _ => getElem?_silenced nodes i
      dsimp only [Construction.silenced, Construction.build]
      rw [hitems]
      exact silences_some (Build.silences_pool _)
  | repeated item count =>
      dsimp only [Construction.silenced, Construction.build]
      rw [getElem?_silenced]
      cases nodes[item]? with
      | none => exact .pure rfl
      | some item => exact silences_some (Build.silences_repeated item count)
  | arithmetic inner op operand tracer =>
      dsimp only [Construction.silenced, Construction.build]
      rw [getElem?_silenced]
      exact (MatchesOrFails.ofExcept _).bind_eq fun op =>
        silences_some (Build.silences_arithmetic _ op operand tracer)
  | dropKeep inner selection threshold tracer =>
      dsimp only [Construction.silenced, Construction.build]
      rw [getElem?_silenced]
      exact (MatchesOrFails.ofExcept _).bind_eq fun selection =>
        silences_some (Build.silences_dropKeep _ selection threshold tracer)
  | explode inner comparator threshold tracer =>
      dsimp only [Construction.silenced, Construction.build]
      rw [getElem?_silenced]
      exact (MatchesOrFails.ofExcept _).bind_eq fun comparator =>
        silences_some (Build.silences_explode _ comparator threshold tracer)
  | wrapInPool inner =>
      dsimp only [Construction.silenced, Construction.build]
      rw [getElem?_silenced]
      exact silences_some (Build.silences_wrapInPool _)
  | child node index =>
      dsimp only [Construction.silenced, Construction.build]
      rw [getElem?_silenced]
      refine .pure ?_
      cases nodes[node]? with
      | none => rfl
      | some node =>
          change _ = node.silenced.children[index]?
          rw [Node.children_silenced, getElem?_silenced]
          rfl
  | copy node =>
      dsimp only [Construction.silenced, Construction.build]
      rw [getElem?_silenced]
      cases nodes[node]? with
      | none => exact .pure rfl
      | some node => exact silences_some (.lift (Build.silences_copy node))
  | retrace node tracer =>
      dsimp only [Construction.silenced, Construction.build]
      rw [getElem?_silenced]
      cases nodes[node]? with
      | none => exact .pure rfl
      | some node => exact .lift (Build.silences_retrace node tracer)
  | parse tracer text => exact silences_some (silences_parse tracer text)

end Constructions

/-! ## Steps -/

theorem matches_get :
    Matches (fun s t : Session σ => s.silenced = t)
      (fun s t => s.silenced = t) get get := by
  rintro s _ rfl
  exact ⟨rfl, rfl⟩

theorem matches_evaluate
    {α β : Type} {R : α → β → Prop} {x : Evaluation α} {y : Evaluation β}
    (h : Matches (fun m n => m.silenced = n) R x y) :
    Matches (fun s t : Session σ => s.silenced = t) R (evaluate x)
      (evaluate y) := by
  rintro ⟨nodes, memory, source, requests⟩ _ rfl
  obtain ⟨hresult, hmemory⟩ := h (s := memory) rfl
  exact ⟨hresult, congrArg
    (fun memory => Session.mk _ (Table.mk memory source requests)) hmemory⟩

theorem matches_atTable
    {α : Type} {x y : Rolling σ α}
    (h : Rolling.Silences x y) :
    Matches (fun s t : Session σ => s.silenced = t) (Agree Eq) (atTable x)
      (atTable y) := by
  rintro ⟨nodes, table⟩ _ rfl
  obtain ⟨hresult, htable⟩ := h (s := table) rfl
  exact ⟨hresult, congrArg (Session.mk _) htable⟩

theorem silences_construct (construction : Construction) :
    Silences (σ := σ) (construct construction)
      (construct construction.silenced) := by
  refine matches_get.bind ?_
  rintro s _ rfl
  refine (matches_evaluate (silences_build s.nodes construction)).bind ?_
  rintro _ _ (⟨⟨⟩⟩ | e)
  · rename_i found
    cases found with
    | none => exact .pure rfl
    | some node =>
        rintro s _ rfl
        refine ⟨rfl, ?_⟩
        change Session.mk ((s.nodes ++ [node]).map Node.silenced) _ = _
        rw [List.map_append]
        rfl
  · exact .pure rfl

theorem silences_answer (engine : Engine σ) (node : Node) (query : Query) :
    Silences (answer engine node query)
      (answer engine node.silenced query) := by
  cases query with
  | roll =>
      refine (matches_atTable (Node.silences_roll engine node)).bind ?_
      rintro _ _ (⟨⟨⟩⟩ | a)
      · exact .pure rfl
      · exact .pure rfl
  | bound e =>
      exact (matches_evaluate (Node.silences_bound node e)).bind_eq fun n =>
        .pure rfl
  | hasExactBounds =>
      exact (matches_evaluate
        (Node.silences_hasExactBounds node)).bind_eq fun b => .pure rfl
  | render =>
      exact .pure (congrArg Answer.text (Node.render_silenced node).symm)
  | binding =>
      exact .pure (congrArg Answer.binding (Node.binding_silenced node).symm)
  | trace =>
      refine matches_get.bind ?_
      rintro s _ rfl
      rw [Node.id_silenced]
      exact .pure rfl

/-- A step is answered alike without tracers. -/
theorem silences_perform (engine : Engine σ) (step : Step σ) :
    Silences (perform engine step) (perform engine step.silenced) := by
  cases step with
  | build construction => exact silences_construct construction
  | ask node query =>
      refine matches_get.bind ?_
      rintro s _ rfl
      have hnode : s.silenced.nodes[node]? = s.nodes[node]?.map Node.silenced :=
        getElem?_silenced s.nodes node
      rw [hnode]
      cases s.nodes[node]? with
      | none => exact .pure rfl
      | some node => exact silences_answer engine node query
  | seat source =>
      rintro s _ rfl
      exact ⟨rfl, rfl⟩

/-- So are all steps of a client. -/
theorem silences_play (engine : Engine σ) (steps : List (Step σ)) :
    Silences (play engine steps) (play engine (steps.map Step.silenced)) := by
  induction steps with
  | nil => exact .pure rfl
  | cons step rest ih =>
      exact (silences_perform engine step).bind_eq fun first =>
        ih.bind_eq fun others => .pure rfl

/-! ## Clients with different tracers -/

/-- Sessions that differ in the tracers of their nodes and in the journal
only. -/
structure SameButTracers (s s' : Session σ) : Prop where
  nodes : s.nodes.map Node.silenced = s'.nodes.map Node.silenced
  fresh : s.table.memory.fresh = s'.table.memory.fresh
  traces : s.table.memory.traces = s'.table.memory.traces
  source : s.table.source = s'.table.source
  requests : s.table.requests = s'.table.requests

theorem sameButTracers_iff {s s' : Session σ} :
    s.SameButTracers s' ↔ s.silenced = s'.silenced := by
  obtain ⟨nodes, ⟨fresh, traces, journal⟩, source, requests⟩ := s
  obtain ⟨nodes', ⟨fresh', traces', journal'⟩, source', requests'⟩ := s'
  simp only [silenced, Table.silenced, Memory.silenced, Session.mk.injEq,
    Table.mk.injEq, Memory.mk.injEq, and_true]
  constructor
  · rintro ⟨hnodes, hfresh, htraces, hsource, hrequests⟩
    exact ⟨hnodes, ⟨hfresh, htraces⟩, hsource, hrequests⟩
  · rintro ⟨hnodes, ⟨hfresh, htraces⟩, hsource, hrequests⟩
    exact ⟨hnodes, hfresh, htraces, hsource, hrequests⟩

/-- Tracers never interfere.  Clients that take the same steps with different
tracers are answered alike: the same constructions are refused for the same
causes, the same rolls are broken off, and all outcomes, bounds, expressions
and traces are equal.  Afterwards their sessions only differ in tracers and in
what these kept: the engine was asked for the same numbers, and all nodes have
the same traces. -/
theorem play_sameButTracers
    {steps steps' : List (Step σ)} {s s' : Session σ}
    (engine : Engine σ)
    (hsteps : steps.map Step.silenced = steps'.map Step.silenced)
    (hs : s.SameButTracers s') :
    ((play engine steps).run s).1 = ((play engine steps').run s').1 ∧
      ((play engine steps).run s).2.SameButTracers
        ((play engine steps').run s').2 := by
  -- Both clients are compared with the silent one, which they have in common.
  rw [sameButTracers_iff] at hs ⊢
  obtain ⟨hanswers, hsession⟩ := silences_play engine steps (s := s) rfl
  obtain ⟨hanswers', hsession'⟩ := silences_play engine steps' (s := s') rfl
  rw [hanswers, hsession, hanswers', hsession', hsteps, hs]
  exact ⟨rfl, rfl⟩

/-- The steps of a client that doubles an exploding die with one tracer on all
modifiers, rolls it, and then reads an explosion without end. -/
def doubleExplosion (tracer : Tracer) : List (Step (List Int)) :=
  [.build (.sided 6),
    .build (.explode 0 (.inr ['>']) (some 4) tracer),
    .build (.arithmetic 1 (.inl .multiply) 2 tracer),
    .ask 2 .roll,
    .ask 1 (.bound .greatest),
    .build (.parse tracer "D6!>0".toList)]

/-- A client whose tracers fail is answered like a client whose tracers keep
everything. -/
theorem play_failing_recording :
    ((play Engine.script (doubleExplosion (Tracer.failing ['f']))).run
        (start [5, 3])).1 =
      [.done, .done, .done,
        .rolled ⟨⟨16, "(5 + 3) * 2".toList⟩, some ⟨2, "D6!>4*2".toList⟩, .roll⟩,
        .value 2147483647,
        .refused (.endlessExplosion "D6!>0".toList .greater 0)] ∧
      ((play Engine.script (doubleExplosion (Tracer.failing ['f']))).run
          (start [5, 3])).1 =
        ((play Engine.script (doubleExplosion (Tracer.recording ['r']))).run
          (start [5, 3])).1 ∧
      ((play Engine.script (doubleExplosion (Tracer.failing ['f']))).run
        (start [5, 3])).2.SameButTracers
        ((play Engine.script (doubleExplosion (Tracer.recording ['r']))).run
          (start [5, 3])).2 :=
  ⟨by cbv, play_sameButTracers Engine.script rfl ⟨rfl, rfl, rfl, rfl, rfl⟩⟩

end Session
end DiceNotation
