import DiceNotation.Proofs.Roll.Stopping

/-!
# Rolls only break off when the engine has no number left

The rounds of a burst are bounded by the supply of the engine.  A round that
calls for another one has used up some of the supply, so the engine runs out
before the rounds do, and no roll is broken off as endless.
-/

namespace DiceNotation

variable {σ : Type} {engine : Engine σ}

namespace Rolling

variable {α β : Type}

/-- At no table the computation is broken off as endless. -/
def NeverEndless (x : Rolling σ α) : Prop :=
  ∀ t, (run x t).1 ≠ .error .endless

theorem neverEndless_pure (a : α) : NeverEndless (σ := σ) (pure a) :=
  fun _ h => by cases h

theorem neverEndless_ofEvaluation (x : Evaluation α) :
    NeverEndless (σ := σ) (ofEvaluation x) :=
  fun _ h => by cases h

theorem neverEndless_draw (engine : Engine σ) (low high : Int) :
    NeverEndless (draw engine low high) := by
  intro t
  rw [run_draw]
  cases engine.answer low high t.source <;> simp

theorem NeverEndless.bind
    {x : Rolling σ α} {f : α → Rolling σ β}
    (hx : NeverEndless x)
    (hf : ∀ a, NeverEndless (f a)) :
    NeverEndless (x >>= f) := by
  intro t
  have hfirst := hx t
  rw [run_bind]
  rcases hrun : run x t with ⟨e | a, u⟩
  · simpa [hrun] using hfirst
  · exact hf a u

theorem NeverEndless.settle
    {x : Rolling σ Outcome}
    (h : NeverEndless x)
    (node : NodeId) :
    NeverEndless (settle node x) := by
  apply (neverEndless_ofEvaluation _).bind
  intro _
  apply h.bind
  intro o
  apply (neverEndless_ofEvaluation _).bind
  intro _
  exact neverEndless_pure o

/-- A burst has rounds enough if it has more than the engine has numbers, and
every round that calls for another one uses up a number. -/
theorem repeatUpTo_ne_endless
    {roll : Rolling σ Outcome} {again : Outcome → Bool}
    (hroll : NeverEndless roll)
    (hspends : ∀ t o u, run roll t = (.ok o, u) → again o = true →
      engine.remaining u.source < engine.remaining t.source)
    {rounds : Nat} {t : Table σ}
    (hrounds : engine.remaining t.source < rounds) :
    (run (repeatUpTo again roll rounds) t).1 ≠ .error .endless := by
  induction rounds generalizing t with
  | zero => omega
  | succ rounds ih =>
      have hfirst := hroll t
      rw [repeatUpTo, run_bind]
      rcases hrun : run roll t with ⟨e | o, u⟩
      · simpa [hrun] using hfirst
      · by_cases hagain : again o = true
        · have hless := hspends t o u hrun hagain
          have hrest := ih (by omega : engine.remaining u.source < rounds)
          simp only [hagain, if_true, run_bind]
          rcases hothers : run (repeatUpTo again roll rounds) u with ⟨e | os, v⟩
          · simpa [hothers] using hrest
          · exact neverEndless_pure (o :: os) v
        · simp only [hagain]
          exact neverEndless_pure [o] u

end Rolling

namespace Node

open Rolling

/-- A round that calls for another one uses up some of the supply. -/
theorem remaining_lt_of_triggers
    {node : Node} {comparator : Comparator}
    {threshold : Option Int} {t u : Table σ} {o : Outcome}
    (hengine : engine.InRange)
    (hnode : node.WellFormed)
    (hexact : node.isExact = true)
    (hend : ¬Endless comparator threshold node)
    (hrun : run (roll engine node) t = (.ok o, u))
    (htriggers : comparator.triggers (node.limit threshold) o.value = true) :
    engine.remaining u.source < engine.remaining t.source := by
  obtain ⟨ds, hroll, hadvances⟩ := (realizes_roll hengine hnode).sound hrun
  obtain ⟨es, s, hlast, hstops⟩ := exists_rolls_stop hnode hexact hend
  have hne :=
    ne_nil_of_triggers (determined_rolls node) hroll htriggers hlast hstops
  have hpos := List.length_pos_iff.mpr hne
  have hsupply := hadvances.answers.length_add_remaining_le
  omega

theorem neverEndless_rollExploding
    {node : Node} {comparator : Comparator} {threshold : Option Int}
    (hroll : NeverEndless (roll engine node))
    (hspends : ∀ t o u, run (roll engine node) t = (.ok o, u) →
      comparator.triggers (node.limit threshold) o.value = true →
        engine.remaining u.source < engine.remaining t.source) :
    NeverEndless (rollExploding engine comparator threshold node
      (roll engine node)) := by
  intro t
  obtain ⟨m, hlimit⟩ : ∃ m, run (explosionLimit threshold node) t =
      (.ok (node.limit threshold), ⟨m, t.source, t.requests⟩) := by
    cases threshold with
    | none =>
        refine ⟨(node.maximum.run t.memory).2, ?_⟩
        rw [limit, Option.getD_none, ← gives_bound node .greatest t.memory]
        rfl
    | some n => exact ⟨t.memory, rfl⟩
  rw [rollExploding, run_bind_ok hlimit]
  exact repeatUpTo_ne_endless hroll hspends (Nat.lt_succ_self _)

theorem neverEndless_rollEach
    {nodes : List Node}
    (h : ∀ node ∈ nodes, NeverEndless (roll engine node)) :
    NeverEndless (rollEach engine nodes) := by
  induction nodes with
  | nil => exact neverEndless_pure []
  | cons node rest ih =>
      rw [List.forall_mem_cons] at h
      apply h.1.bind
      intro o
      apply (ih h.2).bind
      intro os
      exact neverEndless_pure (o :: os)

theorem neverEndless_explodeEach
    {comparator : Comparator} {threshold : Option Int} {nodes : List Node}
    (h : ∀ node ∈ nodes,
      NeverEndless
        (rollExploding engine comparator threshold node (roll engine node))) :
    NeverEndless (explodeEach engine comparator threshold nodes) := by
  induction nodes with
  | nil => exact neverEndless_pure []
  | cons node rest ih =>
      rw [List.forall_mem_cons] at h
      apply h.1.bind
      intro os
      apply (ih h.2).bind
      intro others
      exact neverEndless_pure (os ++ others)

theorem neverEndless_complete (node : Node) (tracer : Tracer) (r : Reading) :
    NeverEndless (σ := σ) (complete node tracer r) := by
  apply (neverEndless_ofEvaluation _).bind
  intro _
  exact neverEndless_pure _

/-- With an engine that answers in range, a roll of a well-formed node is only
broken off when the engine has no number left. -/
theorem neverEndless_roll
    (hengine : engine.InRange)
    {node : Node}
    (hnode : node.WellFormed) :
    NeverEndless (roll engine node) := by
  induction hnode with
  | die =>
      rw [roll]
      apply NeverEndless.settle
      apply (neverEndless_draw engine _ _).bind
      intro n
      exact neverEndless_pure _
  | pool _ ih =>
      rw [roll]
      apply NeverEndless.settle
      apply (neverEndless_rollEach ih).bind
      intro os
      exact neverEndless_pure _
  | arithmetic _ _ _ ih =>
      rw [roll]
      apply NeverEndless.settle
      apply ih.bind
      intro o
      exact neverEndless_complete _ _ _
  | dropKeep _ _ _ _ ih =>
      rw [roll_dropKeep]
      apply NeverEndless.settle
      apply (neverEndless_rollEach ih).bind
      intro os
      exact neverEndless_complete _ _ _
  | @explode id tracer comparator threshold inner hmembers _ hexplodable ih =>
      have hbursts : ∀ member ∈ inner.members,
          NeverEndless (rollExploding engine comparator threshold member
            (roll engine member)) := by
        intro member hmember
        apply neverEndless_rollExploding (ih member hmember)
        intro t o u hrun htriggers
        exact remaining_lt_of_triggers hengine (hmembers member hmember)
          (hexplodable.exact_members member hmember)
          (hexplodable.not_endless_members member hmember) hrun htriggers
      rw [roll_explode]
      apply NeverEndless.settle
      apply (neverEndless_explodeEach hbursts).bind
      intro os
      exact neverEndless_complete _ _ _

end Node
end DiceNotation
