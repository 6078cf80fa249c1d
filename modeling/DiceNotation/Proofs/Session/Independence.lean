import DiceNotation.Proofs.Roll.Structure
import DiceNotation.Proofs.Session.History

/-!
# Independence of the past

What a client is answered about a node does not depend on what it did before.
Traces are written all the time, in nodes that may be shared by many others, but
no evaluation ever reads them.  Moreover a query leaves all nodes alone that are
not a part of its node, and looking at a node changes nothing at all.
-/

namespace DiceNotation
namespace Session

open Node Rolling

variable {σ : Type} {engine : Engine σ} {query : Query} {node node' : Node}
  {s s' : Session σ}

/-- The same answer about another node, which an outcome names as its source. -/
def Answer.about (node : NodeId) : Answer → Answer
  | .rolled o =>
      .rolled { o with
        source := o.source.map fun source => { source with node } }
  | answer => answer

/-- The same query about nodes of two sessions is answered alike, and the engine
is asked for the same numbers.  Where the query asks for a bound, it leaves the
same trace on both nodes. -/
structure AskedAlike (engine : Engine σ) (query : Query) (node node' : Node)
    (s s' : Session σ) : Prop where
  answer : ((answer engine node' query).run s').1 =
    ((answer engine node query).run s).1.about node'.id
  course : SameCourse s.table.requests s'.table.requests
    ((Session.answer engine node query).run s).2.table
    ((Session.answer engine node' query).run s').2.table
  trace : ∀ e, query = .bound e →
    ((Session.answer engine node' query).run s').2.table.memory.trace node'.id =
      ((Session.answer engine node query).run s).2.table.memory.trace node.id

/-- Nodes of the same structure are written alike. -/
theorem render_eq_of_bare_eq
    (h : node'.bare = node.bare) :
    node'.render = node.render := by
  rw [← render_bare, h, render_bare]

/-- Only rolls ask the engine for numbers. -/
theorem sameCourse_unrolled
    (hsource : s'.table.source = s.table.source)
    (hquery : query ≠ .roll) :
    SameCourse s.table.requests s'.table.requests
      ((answer engine node query).run s).2.table
      ((answer engine node' query).run s').2.table := by
  have hcourse :
      SameCourse s.table.requests s'.table.requests s.table s'.table :=
    .refl hsource.symm
  cases query with
  | roll => exact absurd rfl hquery
  | _ => exact ⟨hcourse.source, hcourse.requests⟩

theorem askedAlike_roll
    (hnode : node'.bare = node.bare)
    (hsource : s'.table.source = s.table.source) :
    AskedAlike engine .roll node node' s s' := by
  obtain ⟨hresult, hcourse⟩ := agree_of_bare_eq engine hnode.symm hsource.symm
  constructor
  · rw [run_answer_roll, run_answer_roll]
    dsimp only
    generalize (run (node.roll engine) s.table).1 = r at hresult ⊢
    generalize (run (node'.roll engine) s'.table).1 = r' at hresult ⊢
    cases hresult with
    | ok h =>
        obtain ⟨reading, rfl, rfl⟩ := h
        have hsource' :
            node'.source = { node.source with node := node'.id } := by
          rw [Node.source, Node.source, render_eq_of_bare_eq hnode]
        rw [Node.outcome, hsource']
        rfl
    | error a => rfl
  · rw [run_answer_roll, run_answer_roll]
    exact hcourse
  · intro e he
    cases he

theorem askedAlike_bound
    (hnode : node'.bare = node.bare)
    (hsource : s'.table.source = s.table.source)
    (e : Extreme) :
    AskedAlike engine (.bound e) node node' s s' := by
  have haccount : node'.account e = node.account e := by
    rw [← account_bare, hnode, account_bare]
  obtain ⟨hvalue, htrace⟩ := run_bound node e s.table.memory
  obtain ⟨hvalue', htrace'⟩ := run_bound node' e s'.table.memory
  rw [haccount] at hvalue' htrace'
  constructor
  · exact congrArg Answer.value (hvalue'.trans hvalue.symm)
  · apply sameCourse_unrolled hsource
    rintro ⟨⟩
  · intro _ _
    exact htrace'.trans htrace.symm

/-- Queries that only compute something in the memory, or look at the node. -/
theorem askedAlike_unrolled
    (hsource : s'.table.source = s.table.source)
    (hroll : query ≠ .roll)
    (hbound : ∀ e, query ≠ .bound e)
    (hanswer : ((answer engine node' query).run s').1 =
      ((answer engine node query).run s).1.about node'.id) :
    AskedAlike engine query node node' s s' where
  answer := hanswer
  course := sameCourse_unrolled hsource hroll
  trace e he := absurd he (hbound e)

/-- A later query about a node is answered as it would be about any node of the
same structure, in any session with the engine in the same state. -/
theorem askedAlike_of_bare_eq
    (hquery : query ≠ .trace)
    (hnode : node'.bare = node.bare)
    (hsource : s'.table.source = s.table.source) :
    AskedAlike engine query node node' s s' := by
  cases query with
  | roll => exact askedAlike_roll hnode hsource
  | bound e => exact askedAlike_bound hnode hsource e
  | hasExactBounds =>
      have hexact : node'.isExact = node.isExact := by
        rw [← isExact_bare, hnode, isExact_bare]
      apply askedAlike_unrolled hsource
      · rintro ⟨⟩
      · rintro e ⟨⟩
      · apply congrArg Answer.flag
        exact (gives_hasExactBounds node' _).trans
          (hexact.trans (gives_hasExactBounds node _).symm)
  | render =>
      apply askedAlike_unrolled hsource
      · rintro ⟨⟩
      · rintro e ⟨⟩
      · exact congrArg Answer.text (render_eq_of_bare_eq hnode)
  | binding =>
      have hbinding : node'.binding = node.binding := by
        rw [← binding_bare, hnode, binding_bare]
      apply askedAlike_unrolled hsource
      · rintro ⟨⟩
      · rintro e ⟨⟩
      · exact congrArg Answer.binding hbinding
  | trace => exact absurd rfl hquery

/-- A query changes the traces of parts of its node only. -/
theorem trace_answer_of_not_occurs
    {past : List Event} {part : Node}
    (h : Remembered engine past s)
    (hnode : Present s.nodes node)
    (hpart : Present s.nodes part)
    (hoccurs : ¬Occurs part node)
    (query : Query) :
    ((answer engine node query).run s).2.table.memory.trace part.id =
      s.table.memory.trace part.id := by
  have hidentified := h.recorded.identified
  have hcaused :=
    caused_answer engine (hidentified.ordered_of_present hnode) query s
  apply hcaused.trace_of_absent
  intro other hother hid
  rw [present_singleton_iff] at hother
  have hsame :=
    hidentified.unique other (Present.trans hother hnode) part hpart hid
  rw [hsame] at hother
  exact hoccurs hother

/-- What came before never matters.  Whatever a client has built and asked, also
if rolls were broken off, a query about a node that it can reach is answered as
it would be about any other node of the same structure, such as one that was
just built, in any session with the engine in the same state: the answers are
the same, up to the node that an outcome names as its source, the engine is
asked for the same numbers, and a bound leaves the same trace.  The query
changes the traces of parts of its node only, and nothing at all if it only
looks at the node. -/
theorem query_independent_of_past
    (engine : Engine σ) (source : σ) (steps : List (Step σ))
    (node : Node) (query : Query)
    (hnode : Present ((play engine steps).run (start source)).2.nodes node) :
    let s := ((play engine steps).run (start source)).2
    let after := ((answer engine node query).run s).2
    (query ≠ .trace → ∀ (s' : Session σ) (node' : Node),
      node'.bare = node.bare →
        s'.table.source = s.table.source →
        AskedAlike engine query node node' s s') ∧
      (∀ part, Present s.nodes part → ¬Occurs part node →
        after.table.memory.trace part.id = s.table.memory.trace part.id) ∧
      (query = .render ∨ query = .binding → after = s) := by
  intro s after
  have h : Remembered engine (history engine steps (start source) ++ []) s :=
    (Remembered.start engine source).play steps
  refine ⟨?_, ?_, ?_⟩
  · intro hquery s' node' hbare hsource
    exact askedAlike_of_bare_eq hquery hbare hsource
  · intro part hpart hoccurs
    exact trace_answer_of_not_occurs h hnode hpart hoccurs query
  · rintro (rfl | rfl)
    · rfl
    · rfl

/-- The steps of a client that rolls two dice for which there is one number
only, asks for their greatest sum, and gets a new engine. -/
def twoDiceAgain : List (Step (List Int)) :=
  twoDice ++ [.ask 1 (.bound .greatest), .seat [2, 5]]

/-- After a roll that was broken off, two dice are rolled like two other dice
that were just built in another session. -/
theorem two_dice_rolled_again :
    let dice : Node := .pool 3 [.die 1 (.sided 6), .die 2 (.sided 6)]
    let fresh : Node := .pool 4 [.die 2 (.sided 6), .die 3 (.sided 6)]
    let s' : Session (List Int) :=
      ((play Engine.script [.build .fudge, .build (.sided 6),
        .build (.repeated 1 2)]).run (start [2, 5])).2
    fresh ∈ s'.nodes ∧
      ((answer Engine.script dice .roll).run
          ((play Engine.script twoDiceAgain).run (start [4])).2).1 =
        .rolled ⟨⟨7, "2 + 5".toList⟩, some ⟨3, "2D6".toList⟩, .roll⟩ ∧
      ((answer Engine.script fresh .roll).run s').1 =
        .rolled ⟨⟨7, "2 + 5".toList⟩, some ⟨4, "2D6".toList⟩, .roll⟩ := by
  intro dice fresh s'
  have hnodes : ((play Engine.script twoDiceAgain).run (start [4])).2.nodes =
      [.die 0 (.sided 6), dice] := rfl
  have hdice : Present ((play Engine.script twoDiceAgain).run
      (start [4])).2.nodes dice := by
    rw [hnodes]
    exact present_of_mem (List.mem_cons_of_mem _ (List.mem_singleton_self dice))
  have hfresh : s'.nodes = [.die 0 .fudge, .die 1 (.sided 6), fresh] := rfl
  have hrolled : ((answer Engine.script dice .roll).run
      ((play Engine.script twoDiceAgain).run (start [4])).2).1 =
        .rolled ⟨⟨7, "2 + 5".toList⟩, some ⟨3, "2D6".toList⟩, .roll⟩ := by
    cbv
  refine ⟨?_, hrolled, ?_⟩
  · rw [hfresh]
    exact List.mem_cons_of_mem _
      (List.mem_cons_of_mem _ (List.mem_singleton_self fresh))
  · have hroll : (Query.roll : Query) ≠ .trace := by
      rintro ⟨⟩
    have halike := (query_independent_of_past Engine.script
      [4] twoDiceAgain dice .roll hdice).1 hroll s' fresh rfl rfl
    rw [halike.answer, hrolled]
    rfl

end Session
end DiceNotation
