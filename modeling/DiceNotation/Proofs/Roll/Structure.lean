import DiceNotation.Proofs.Node.Bare
import DiceNotation.Proofs.Roll.Table
import DiceNotation.Proofs.Session.Matching

/-!
# Rolls only look at the structure

A roll never reads a trace.  What it comes to and what it asks the engine for
only depends on the structure of the node and on the state of the engine, so the
node and its bare structure can be rolled side by side, whatever memories they
work on.
-/

namespace DiceNotation

variable {σ : Type}

/-- The engine is in the same state at both tables, and it was asked for the
same numbers since then. -/
structure SameCourse (since since' : Array (Int × Int))
    (t u : Table σ) : Prop where
  source : t.source = u.source
  requests : ∃ made, t.requests = since ++ made ∧ u.requests = since' ++ made

theorem SameCourse.refl
    {t u : Table σ}
    (h : t.source = u.source) :
    SameCourse t.requests u.requests t u where
  source := h
  requests := ⟨#[], by simp, by simp⟩

/-- Two tables on the same course as a third one. -/
theorem SameCourse.join
    {since since' since'' : Array (Int × Int)} {t t' u : Table σ}
    (h : SameCourse since since'' t u)
    (h' : SameCourse since' since'' t' u) :
    SameCourse since since' t t' where
  source := h.source.trans h'.source.symm
  requests := by
    obtain ⟨made, ht, hu⟩ := h.requests
    obtain ⟨made', ht', hu'⟩ := h'.requests
    have hmade : made = made' :=
      (Array.append_right_inj since'').mp (hu.symm.trans hu')
    rw [← hmade] at ht'
    exact ⟨made, ht, ht'⟩

/-- One more request at both tables. -/
theorem SameCourse.push
    {since since' : Array (Int × Int)} {t u t' u' : Table σ}
    {request : Int × Int}
    (h : SameCourse since since' t u)
    (hsource : t'.source = u'.source)
    (ht : t'.requests = t.requests.push request)
    (hu : u'.requests = u.requests.push request) :
    SameCourse since since' t' u' where
  source := hsource
  requests := by
    obtain ⟨made, hmade, hmade'⟩ := h.requests
    refine ⟨made.push request, ?_, ?_⟩
    · rw [ht, hmade, Array.append_push]
    · rw [hu, hmade', Array.append_push]

/-- Both outcomes have the same reading. -/
abbrev SameReading (o o' : Outcome) : Prop :=
  o.toReading = o'.toReading

/-- All outcomes have the same readings. -/
abbrev SameReadings (os os' : List Outcome) : Prop :=
  os.map Outcome.toReading = os'.map Outcome.toReading

namespace Rolling

open Evaluation

variable {α : Type} {since since' : Array (Int × Int)}

/-- At tables on the same course, both computations come to corresponding
results or are broken off alike, and they stay on the same course. -/
abbrev Agrees {α β : Type} (since since' : Array (Int × Int)) (R : α → β → Prop)
    (x : Rolling σ α) (y : Rolling σ β) : Prop :=
  MatchesOrFails (SameCourse since since') R x y

/-- What only concerns the memory may differ in what it does there. -/
theorem agrees_ofEvaluation
    {x y : Evaluation α} {a : α}
    (hx : x.Gives a)
    (hy : y.Gives a) :
    Agrees (σ := σ) since since' Eq (ofEvaluation x) (ofEvaluation y) := by
  intro t u h
  exact ⟨.ok ((hx t.memory).trans (hy u.memory).symm), h.source, h.requests⟩

theorem agrees_draw (engine : Engine σ) (low high : Int) :
    Agrees since since' Eq (draw engine low high) (draw engine low high) := by
  intro t u h
  change Agree Eq (run (draw engine low high) t).1
    (run (draw engine low high) u).1 ∧
    SameCourse since since' (run (draw engine low high) t).2
      (run (draw engine low high) u).2
  rw [run_draw, run_draw, ← h.source]
  cases engine.answer low high t.source with
  | none => exact ⟨.error _, h.push rfl rfl rfl⟩
  | some answer => exact ⟨.ok rfl, h.push rfl rfl rfl⟩

/-- A roll and a roll that settles another node. -/
theorem agrees_settle
    {R : Outcome → Outcome → Prop} {x y : Rolling σ Outcome}
    (h : Agrees since since' R x y)
    (node node' : NodeId) :
    Agrees since since' R (settle node x) (settle node' y) := by
  have hset (trace trace' : Text) : Agrees (σ := σ) since since' Eq
      (ofEvaluation (Memory.setTrace node trace))
      (ofEvaluation (Memory.setTrace node' trace')) :=
    agrees_ofEvaluation (fun _ => rfl) fun _ => rfl
  apply (hset [] []).bind_eq
  intro _
  apply h.bind
  intro o o' ho
  apply (hset o.trace o'.trace).bind_eq
  intro _
  exact .pure ho

theorem agrees_repeatUpTo
    {x y : Rolling σ Outcome} {again : Outcome → Bool}
    (h : Agrees since since' SameReading x y)
    (hagain : ∀ o o', SameReading o o' → again o = again o')
    (rounds : Nat) :
    Agrees since since' SameReadings (repeatUpTo again x rounds)
      (repeatUpTo again y rounds) := by
  induction rounds with
  | zero => exact .throw _
  | succ rounds ih =>
      rw [repeatUpTo, repeatUpTo]
      apply h.bind
      intro o o' ho
      rw [hagain o o' ho]
      split
      · apply ih.bind
        intro os os' hos
        apply MatchesOrFails.pure
        rw [SameReadings, List.map_cons, List.map_cons, ho, hos]
      · apply MatchesOrFails.pure
        rw [SameReadings, List.map_singleton, List.map_singleton, ho]

/-- The number of rounds hangs on the engine alone. -/
theorem agrees_repeatWhile
    {x y : Rolling σ Outcome} {again : Outcome → Bool}
    (h : Agrees since since' SameReading x y)
    (hagain : ∀ o o', SameReading o o' → again o = again o')
    (engine : Engine σ) :
    Agrees since since' SameReadings (repeatWhile engine again x)
      (repeatWhile engine again y) := by
  intro t u hcourse
  have hrounds :=
    agrees_repeatUpTo h hagain (engine.remaining t.source + 1) hcourse
  change
    Agree SameReadings
      ((ExceptT.run
        (repeatUpTo again x (engine.remaining t.source + 1))).run t).1
      ((ExceptT.run
        (repeatUpTo again y (engine.remaining u.source + 1))).run u).1 ∧
    SameCourse since since'
      ((ExceptT.run
        (repeatUpTo again x (engine.remaining t.source + 1))).run t).2
      ((ExceptT.run
        (repeatUpTo again y (engine.remaining u.source + 1))).run u).2
  rw [← hcourse.source]
  exact hrounds

end Rolling

namespace Node

open Rolling

variable {since since' : Array (Int × Int)}

/-- Both outcomes are those of a roll of a node and of its bare structure, with
the same reading. -/
def AreOutcomes (node : Node) (o o' : Outcome) : Prop :=
  ∃ r, o = node.outcome .roll r ∧ o' = node.bare.outcome .roll r

theorem AreOutcomes.sameReading
    {node : Node} {o o' : Outcome}
    (h : AreOutcomes node o o') :
    SameReading o o' := by
  obtain ⟨r, rfl, rfl⟩ := h
  rfl

theorem agrees_complete (node : Node) (tracer : Tracer) (r : Reading) :
    Agrees (σ := σ) since since' (AreOutcomes node) (node.complete tracer r)
      (node.bare.complete Tracer.silent r) := by
  apply (agrees_ofEvaluation (gives_report node tracer .roll r)
    (gives_report node.bare Tracer.silent .roll r)).bind_eq
  intro _
  exact .pure ⟨r, rfl, rfl⟩

theorem agrees_rollExploding
    {node : Node} {x y : Rolling σ Outcome}
    (h : Agrees since since' SameReading x y)
    (engine : Engine σ) (comparator : Comparator) (threshold : Option Int) :
    Agrees since since' SameReadings
      (rollExploding engine comparator threshold node x)
      (rollExploding engine comparator threshold node.bare y) := by
  have hlimit : Agrees (σ := σ) since since' Eq (explosionLimit threshold node)
      (explosionLimit threshold node.bare) := by
    cases threshold with
    | none =>
        have hbare := gives_bound node.bare .greatest
        rw [extreme_bare] at hbare
        exact agrees_ofEvaluation (gives_bound node .greatest) hbare
    | some t => exact .pure rfl
  apply hlimit.bind_eq
  intro limit
  apply agrees_repeatWhile h
  intro o o' ho
  exact congrArg (fun r : Reading => comparator.triggers limit r.value) ho

theorem agrees_rollEach
    {engine : Engine σ} {nodes : List Node}
    (h : ∀ node ∈ nodes, Agrees since since' SameReading (roll engine node)
      (roll engine node.bare)) :
    Agrees since since' SameReadings (rollEach engine nodes)
      (rollEach engine (nodes.map bare)) := by
  induction nodes with
  | nil => exact .pure rfl
  | cons node rest ih =>
      rw [List.forall_mem_cons] at h
      rw [List.map_cons, rollEach, rollEach]
      apply h.1.bind
      intro o o' ho
      apply (ih h.2).bind
      intro os os' hos
      apply MatchesOrFails.pure
      rw [SameReadings, List.map_cons, List.map_cons, ho, hos]

theorem agrees_explodeEach
    {engine : Engine σ} {nodes : List Node}
    (h : ∀ node ∈ nodes, Agrees since since' SameReading (roll engine node)
      (roll engine node.bare))
    (comparator : Comparator) (threshold : Option Int) :
    Agrees since since' SameReadings
      (explodeEach engine comparator threshold nodes)
      (explodeEach engine comparator threshold (nodes.map bare)) := by
  induction nodes with
  | nil => exact .pure rfl
  | cons node rest ih =>
      rw [List.forall_mem_cons] at h
      rw [List.map_cons, explodeEach, explodeEach]
      apply (agrees_rollExploding h.1 engine comparator threshold).bind
      intro os os' hos
      apply (ih h.2).bind
      intro others others' hothers
      apply MatchesOrFails.pure
      rw [SameReadings, List.map_append, List.map_append, hos, hothers]

/-- A roll of a node agrees with a roll of its bare structure. -/
theorem agrees_roll (engine : Engine σ) (node : Node) :
    Agrees since since' (AreOutcomes node) (roll engine node)
      (roll engine node.bare) := by
  -- Results are only combined by their readings.
  have hreadings {node : Node}
      (h : Agrees since since' (AreOutcomes node) (roll engine node)
        (roll engine node.bare)) :
      Agrees since since' SameReading (roll engine node)
        (roll engine node.bare) :=
    h.mono fun o o' ho => ho.sameReading
  induction node using induction_members with
  | die id d =>
      apply agrees_settle
      apply (agrees_draw engine d.range.1 d.range.2).bind_eq
      intro n
      exact .pure ⟨_, rfl, rfl⟩
  | pool id items ih =>
      have hroll : roll engine (pool id items).bare =
          settle 0 (do
            let outcomes ← rollEach engine (items.map bare)
            return (pool id items).bare.outcome .roll (totalOf outcomes)) := by
        rw [bare_pool, roll]
      rw [hroll, roll]
      apply agrees_settle
      apply (agrees_rollEach fun item hitem => hreadings (ih item hitem)).bind
      intro os os' hos
      apply MatchesOrFails.pure
      refine ⟨totalOf os, rfl, ?_⟩
      rw [totalOf, totalOf, hos]
  | arithmetic id tracer op operand inner ih =>
      rw [bare, roll, roll]
      apply agrees_settle
      apply (hreadings ih).bind
      intro o o' ho
      rw [ho]
      exact agrees_complete (arithmetic id tracer op operand inner) tracer _
  | dropKeep id tracer selection threshold inner _ ih =>
      rw [bare, roll_dropKeep, roll_dropKeep, members_bare]
      apply agrees_settle
      apply (agrees_rollEach fun member hmember =>
        hreadings (ih member hmember)).bind
      intro os os' hos
      have hvalues : os.map (fun o => o.value) = os'.map fun o => o.value := by
        have h := congrArg (List.map Reading.value) hos
        rwa [List.map_map, List.map_map] at h
      rw [totalChosen, totalChosen, hvalues]
      exact agrees_complete
        (dropKeep id tracer selection threshold inner) tracer _
  | explode id tracer comparator threshold inner _ ih =>
      rw [bare, roll_explode, roll_explode, members_bare]
      apply agrees_settle
      apply (agrees_explodeEach
        (fun member hmember => hreadings (ih member hmember)) comparator
        threshold).bind
      intro os os' hos
      rw [totalOf, totalOf, hos]
      exact agrees_complete
        (explode id tracer comparator threshold inner) tracer _

/-- Nodes of the same structure that are rolled with an engine in the same state
come to outcomes with the same reading, or are broken off alike, after the same
requests. -/
theorem agree_of_bare_eq
    (engine : Engine σ) {node node' : Node} {t t' : Table σ}
    (hnode : node.bare = node'.bare)
    (hsource : t.source = t'.source) :
    Agree (fun o o' => ∃ r, o = node.outcome .roll r ∧
      o' = node'.outcome .roll r)
        (run (roll engine node) t).1 (run (roll engine node') t').1 ∧
      SameCourse t.requests t'.requests (run (roll engine node) t).2
        (run (roll engine node') t').2 := by
  have hfirst := agrees_roll engine node (SameCourse.refl (t := t) (u := t) rfl)
  have hsecond :=
    agrees_roll engine node' (SameCourse.refl (t := t') (u := t) hsource.symm)
  rw [← hnode] at hsecond
  refine ⟨hfirst.1.join hsecond.1 ?_, hfirst.2.join hsecond.2⟩
  rintro _ _ _ ⟨r, rfl, rfl⟩ ⟨r', rfl, hmiddle⟩
  have hreading : r = r' := congrArg Outcome.toReading hmiddle
  exact ⟨r, rfl, by rw [hreading]⟩

end Node
end DiceNotation
