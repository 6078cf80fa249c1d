import DiceNotation.Proofs.Roll.Stopping
import DiceNotation.Proofs.Safety.Bounds

/-!
# Guarded rolls

A roll with guarded operations: a request needs a range that is not empty, the
index of a face has to lie inside of its list, and every sum is tallied result
by result, also the sum of an explosion that is still going on.  For well-formed
nodes and engines that answer in range, it guards the plain roll.
-/

namespace DiceNotation

variable {σ : Type}

namespace Rolling

/-- Asks the engine for a number from a range that must not be empty. -/
def guardedDraw (engine : Engine σ) (low high : Int) :
    ExceptT Fault (Rolling σ) Int :=
  if low ≤ high then ExceptT.lift (draw engine low high)
  else Fault.check (.error .emptyRange)

/-- The guarded roll of a node, which empties and sets its trace. -/
def guardedSettle (node : NodeId) (roll : ExceptT Fault (Rolling σ) Outcome) :
    ExceptT Fault (Rolling σ) Outcome := do
  ExceptT.lift (ofEvaluation (Memory.setTrace node []))
  let o ← roll
  ExceptT.lift (ofEvaluation (Memory.setTrace node o.trace))
  return o

/-- Rolls once, and again as long as the last outcome calls for it, and adds
every value to a tally. -/
def guardedRepeatUpTo (again : Outcome → Bool)
    (roll : ExceptT Fault (Rolling σ) Outcome) :
    Nat → Tally → ExceptT Fault (Rolling σ) (List Outcome × Tally)
  | 0, _ => ExceptT.lift (throw .endless)
  | rounds + 1, tally => do
      let o ← roll
      let tally ← Fault.check (tally.add o.value)
      if again o then
        let (rest, tally) ← guardedRepeatUpTo again roll rounds tally
        return (o :: rest, tally)
      else
        return ([o], tally)

/-- Rolls as often as the outcomes call for it, in as many rounds as the engine
can supply. -/
def guardedRepeatWhile (engine : Engine σ) (again : Outcome → Bool)
    (roll : ExceptT Fault (Rolling σ) Outcome) (tally : Tally) :
    ExceptT Fault (Rolling σ) (List Outcome × Tally) := do
  let t ← ExceptT.lift (get : Rolling σ (Table σ))
  guardedRepeatUpTo again roll (engine.remaining t.source + 1) tally

/-- The guarded outcome is the plain one, and its value is in range. -/
abbrev SameOutcome (o o' : Outcome) : Prop :=
  o = o' ∧ Limits.Holds o'.value

/-- The guarded outcomes are the plain ones, and their values are tallied behind
the values before. -/
abbrev SameOutcomes (before : List Int) (p : List Outcome × Tally)
    (os : List Outcome) : Prop :=
  p.1 = os ∧ p.2.Counts (before ++ os.map fun o => o.value)

/-- A request from a range that is not empty is answered in this range. -/
theorem guards_draw
    {engine : Engine σ} {low high : Int}
    (hengine : engine.InRange)
    (hle : low ≤ high) :
    Guards (fun n n' => n = n' ∧ low ≤ n' ∧ n' ≤ high)
      (guardedDraw engine low high)
      (draw engine low high) := by
  rw [guardedDraw, if_pos hle]
  apply guards_lift_of
  intro t n u hrun
  obtain ⟨ds, ⟨-, hrange⟩, -⟩ := (realizes_draw hengine hle).sound hrun
  exact hrange

theorem guards_settle
    {x : ExceptT Fault (Rolling σ) Outcome} {y : Rolling σ Outcome}
    (node : NodeId)
    (h : Guards SameOutcome x y) :
    Guards SameOutcome (guardedSettle node x) (settle node y) := by
  apply (guards_lift _).bind
  intro _ _ _
  apply h.bind
  rintro o _ ⟨rfl, ho⟩
  apply (guards_lift _).bind
  intro _ _ _
  exact guards_pure ⟨rfl, ho⟩

theorem guards_repeatUpTo
    {x : ExceptT Fault (Rolling σ) Outcome} {y : Rolling σ Outcome}
    (h : Guards SameOutcome x y)
    (again : Outcome → Bool)
    (rounds : Nat)
    {tally : Tally} {before : List Int}
    (htally : tally.Counts before) :
    Guards (SameOutcomes before) (guardedRepeatUpTo again x rounds tally)
      (repeatUpTo again y rounds) := by
  induction rounds generalizing tally before with
  | zero => exact guards_throw .endless
  | succ rounds ih =>
      rw [guardedRepeatUpTo, repeatUpTo]
      apply h.bind
      rintro o _ ⟨rfl, ho⟩
      apply Guards.check_bind (Tally.spares_add htally ho)
      intro tally' htally'
      split
      · apply (ih htally').bind
        rintro ⟨os, tally''⟩ _ ⟨rfl, hcounts⟩
        exact guards_pure ⟨rfl, by simpa using hcounts⟩
      · exact guards_pure ⟨rfl, by simpa using htally'⟩

theorem guards_repeatWhile
    {x : ExceptT Fault (Rolling σ) Outcome} {y : Rolling σ Outcome}
    (h : Guards SameOutcome x y)
    (engine : Engine σ)
    (again : Outcome → Bool)
    {tally : Tally} {before : List Int}
    (htally : tally.Counts before) :
    Guards (SameOutcomes before) (guardedRepeatWhile engine again x tally)
      (repeatWhile engine again y) := by
  apply (guards_lift (get : Rolling σ (Table σ))).bind
  rintro t _ rfl
  exact guards_repeatUpTo h again _ htally

end Rolling

namespace Node

/-- The guarded form of the number that results are compared with. -/
def guardedLimit (threshold : Option Int) (member : Node) :
    ExceptT Fault (Rolling σ) Int :=
  match threshold with
  | some t => return t
  | none => Rolling.ofGuarded (member.guardedBound .greatest)

/-- The guarded rolls of a member of an exploding node. -/
def guardedRollExploding (engine : Engine σ) (comparator : Comparator)
    (threshold : Option Int) (member : Node)
    (roll : ExceptT Fault (Rolling σ) Outcome) (tally : Tally) :
    ExceptT Fault (Rolling σ) (List Outcome × Tally) := do
  let limit ← guardedLimit threshold member
  Rolling.guardedRepeatWhile engine
    (fun o => comparator.triggers limit o.value) roll tally

open Fault Rolling in
mutual

/-- The guarded form of a roll. -/
def guardedRoll (engine : Engine σ) : Node → ExceptT Fault (Rolling σ) Outcome
  | die id d =>
      guardedSettle id do
        let n ← guardedDraw engine d.range.1 d.range.2
        let face ← check (d.guardedFace n)
        return (die id d).outcome .roll (Reading.ofValue face)
  | pool id items =>
      guardedSettle id do
        let (os, tally) ← guardedRollSum engine items Tally.zero
        return (pool id items).outcome .roll
          (tally.reading (os.map Outcome.toReading))
  | arithmetic id tracer op operand inner =>
      guardedSettle id do
        let o ← guardedRoll engine inner
        let r ← check (o.toReading.guardedOperate op operand)
        ExceptT.lift (complete (arithmetic id tracer op operand inner) tracer r)
  | dropKeep id tracer selection threshold (pool poolId items) =>
      guardedSettle id do
        check (requireItems (pool poolId items))
        let os ← guardedRollEach engine items
        let r ← check (selection.guardedReading threshold
          (os.map fun o => o.value))
        ExceptT.lift
          (complete (dropKeep id tracer selection threshold (pool poolId items))
            tracer r)
  | dropKeep id tracer selection threshold inner =>
      guardedSettle id do
        check (requireItems inner)
        let o ← guardedRoll engine inner
        let r ← check (selection.guardedReading threshold [o.value])
        ExceptT.lift
          (complete (dropKeep id tracer selection threshold inner) tracer r)
  | explode id tracer comparator threshold (pool poolId items) =>
      guardedSettle id do
        check (requireItems (pool poolId items))
        let (os, tally) ← guardedExplodeSum engine comparator threshold
          items Tally.zero
        ExceptT.lift
          (complete (explode id tracer comparator threshold (pool poolId items))
            tracer (tally.reading (os.map Outcome.toReading)))
  | explode id tracer comparator threshold inner =>
      guardedSettle id do
        check (requireItems inner)
        let (os, tally) ← guardedRollExploding engine comparator threshold inner
          (guardedRoll engine inner) Tally.zero
        ExceptT.lift (complete (explode id tracer comparator threshold inner)
          tracer (tally.reading (os.map Outcome.toReading)))
termination_by structural node => node

/-- The guarded rolls of nodes, from left to right. -/
def guardedRollEach (engine : Engine σ) :
    List Node → ExceptT Fault (Rolling σ) (List Outcome)
  | [] => return []
  | node :: rest => do
      let o ← guardedRoll engine node
      let os ← guardedRollEach engine rest
      return o :: os
termination_by structural nodes => nodes

/-- The guarded rolls of nodes, from left to right, added to a tally. -/
def guardedRollSum (engine : Engine σ) :
    List Node → Tally → ExceptT Fault (Rolling σ) (List Outcome × Tally)
  | [], tally => return ([], tally)
  | node :: rest, tally => do
      let o ← guardedRoll engine node
      let tally ← check (tally.add o.value)
      let (os, tally) ← guardedRollSum engine rest tally
      return (o :: os, tally)
termination_by structural nodes => nodes

/-- The guarded explosions of nodes, from left to right, added to a tally. -/
def guardedExplodeSum (engine : Engine σ) (comparator : Comparator)
    (threshold : Option Int) :
    List Node → Tally → ExceptT Fault (Rolling σ) (List Outcome × Tally)
  | [], tally => return ([], tally)
  | node :: rest, tally => do
      let (os, tally) ← guardedRollExploding engine comparator threshold node
        (guardedRoll engine node) tally
      let (others, tally) ← guardedExplodeSum engine comparator
        threshold rest tally
      return (os ++ others, tally)
termination_by structural nodes => nodes

end

/-- A selection rolls the members of its inner node, whatever that node is. -/
theorem guardedRoll_dropKeep
    (engine : Engine σ) (node : NodeId) (tracer : Tracer)
    (selection : Selection) (threshold : Nat) (inner : Node) :
    guardedRoll engine (dropKeep node tracer selection threshold inner) =
      Rolling.guardedSettle node (do
        Fault.check (requireItems inner)
        let os ← guardedRollEach engine inner.members
        let r ← Fault.check (selection.guardedReading threshold
          (os.map fun o => o.value))
        ExceptT.lift
          (complete (dropKeep node tracer selection threshold inner)
            tracer r)) := by
  cases inner <;> simp [guardedRoll, guardedRollEach, members]

/-- An explosion rolls the members of its inner node one by one, whatever that
node is. -/
theorem guardedRoll_explode
    (engine : Engine σ) (node : NodeId) (tracer : Tracer)
    (comparator : Comparator)
    (threshold : Option Int) (inner : Node) :
    guardedRoll engine (explode node tracer comparator threshold inner) =
      Rolling.guardedSettle node (do
        Fault.check (requireItems inner)
        let (os, tally) ← guardedExplodeSum engine comparator threshold
          inner.members Tally.zero
        ExceptT.lift (complete (explode node tracer comparator threshold inner)
          tracer (tally.reading (os.map Outcome.toReading)))) := by
  cases inner <;> simp [guardedRoll, guardedExplodeSum, members]

open Rolling

variable {engine : Engine σ}

theorem guards_complete
    {node : Node} {tracer : Tracer} {r : Reading}
    (hr : Limits.Holds r.value) :
    Guards (σ := σ) SameOutcome (ExceptT.lift (complete node tracer r))
      (complete node tracer r) := by
  apply guards_lift_of
  intro t o u hrun
  cases hrun
  exact hr

theorem guards_limit
    {member : Node}
    (hmember : member.WellFormed)
    (threshold : Option Int) :
    Guards (σ := σ) Eq (guardedLimit threshold member)
      (explosionLimit threshold member) := by
  cases threshold with
  | some t => exact guards_pure rfl
  | none =>
      apply (guards_ofGuarded (guards_bound hmember .greatest)).mono
      intro _ _ h
      exact h.1

section Sequences

variable {nodes : List Node} {tally : Tally} {before : List Int}

theorem guards_rollExploding
    {node : Node}
    (hnode : node.WellFormed)
    (h : Guards SameOutcome (guardedRoll engine node) (roll engine node))
    (comparator : Comparator)
    (threshold : Option Int)
    (htally : tally.Counts before) :
    Guards (SameOutcomes before)
      (guardedRollExploding engine comparator threshold node
        (guardedRoll engine node) tally)
      (rollExploding engine comparator threshold node (roll engine node)) := by
  apply (guards_limit hnode threshold).bind
  rintro limit _ rfl
  exact guards_repeatWhile h engine _ htally

theorem guards_rollEach
    (h : ∀ node ∈ nodes,
      Guards SameOutcome (guardedRoll engine node) (roll engine node)) :
    Guards (fun os os' => os = os' ∧ os'.length = nodes.length ∧
        ∀ o ∈ os', Limits.Holds o.value)
      (guardedRollEach engine nodes) (rollEach engine nodes) := by
  induction nodes with
  | nil => exact guards_pure (by simp)
  | cons node rest ih =>
      rw [List.forall_mem_cons] at h
      rw [guardedRollEach, rollEach]
      apply h.1.bind
      rintro o _ ⟨rfl, ho⟩
      apply (ih h.2).bind
      rintro os _ ⟨rfl, hlength, hos⟩
      exact guards_pure ⟨rfl,
        by simp [hlength], List.forall_mem_cons.mpr ⟨ho, hos⟩⟩

theorem guards_rollSum
    (h : ∀ node ∈ nodes,
      Guards SameOutcome (guardedRoll engine node) (roll engine node))
    (htally : tally.Counts before) :
    Guards (SameOutcomes before) (guardedRollSum engine nodes tally)
      (rollEach engine nodes) := by
  induction nodes generalizing tally before with
  | nil => exact guards_pure ⟨rfl, by simpa using htally⟩
  | cons node rest ih =>
      rw [List.forall_mem_cons] at h
      rw [guardedRollSum, rollEach]
      apply h.1.bind
      rintro o _ ⟨rfl, ho⟩
      apply Guards.check_bind (Tally.spares_add htally ho)
      intro tally' htally'
      apply (ih h.2 htally').bind
      rintro ⟨os, tally''⟩ _ ⟨rfl, hcounts⟩
      exact guards_pure ⟨rfl, by simpa using hcounts⟩

theorem guards_explodeSum
    {comparator : Comparator} {threshold : Option Int}
    (hnodes : ∀ node ∈ nodes, node.WellFormed)
    (h : ∀ node ∈ nodes,
      Guards SameOutcome (guardedRoll engine node) (roll engine node))
    (htally : tally.Counts before) :
    Guards (SameOutcomes before)
      (guardedExplodeSum engine comparator threshold nodes tally)
      (explodeEach engine comparator threshold nodes) := by
  induction nodes generalizing tally before with
  | nil => exact guards_pure ⟨rfl, by simpa using htally⟩
  | cons node rest ih =>
      rw [List.forall_mem_cons] at h hnodes
      rw [guardedExplodeSum, explodeEach]
      apply (guards_rollExploding hnodes.1 h.1 comparator threshold htally).bind
      rintro ⟨os, tally'⟩ _ ⟨rfl, htally'⟩
      apply (ih hnodes.2 h.2 htally').bind
      rintro ⟨others, tally''⟩ _ ⟨rfl, hcounts⟩
      exact guards_pure ⟨rfl, by simpa using hcounts⟩

/-- The total of outcomes is read from their tally. -/
theorem reading_eq_totalOf
    {os : List Outcome}
    (h : tally.Counts ([] ++ os.map fun o => o.value)) :
    tally.reading (os.map Outcome.toReading) = totalOf os := by
  apply Tally.reading_eq_total
  simpa [Function.comp_def] using h

end Sequences

/-- With an engine that answers in range, the guarded rolls of a well-formed
node guard the plain ones. -/
theorem guards_roll
    (hengine : engine.InRange)
    {node : Node}
    (hnode : node.WellFormed) :
    Guards SameOutcome (guardedRoll engine node) (roll engine node) := by
  induction hnode with
  | @die id d hd =>
      rw [guardedRoll, roll]
      apply guards_settle
      apply (guards_draw hengine (Die.range_le hd)).bind
      rintro n _ ⟨rfl, hlow, hhigh⟩
      rw [Die.guardedFace_eq hlow hhigh]
      exact guards_check_ok (guards_pure ⟨rfl, Die.holds_face hd hlow hhigh⟩)
  | @pool id items _ ih =>
      rw [guardedRoll, roll]
      apply guards_settle
      apply (guards_rollSum ih Tally.counts_zero).bind
      rintro ⟨os, tally⟩ _ ⟨rfl, hcounts⟩
      dsimp only at hcounts ⊢
      rw [reading_eq_totalOf hcounts]
      exact guards_pure ⟨rfl, clamp_holds _⟩
  | @arithmetic id tracer op operand inner _ hhigh hdivide ih =>
      have hfits : op.Fits operand := ⟨hhigh, hdivide⟩
      rw [guardedRoll, roll]
      apply guards_settle
      apply ih.bind
      rintro o _ ⟨rfl, ho⟩
      rw [Reading.guardedOperate_eq hfits ho]
      exact guards_check_ok (guards_complete (Operator.holds_apply ho))
  | @dropKeep id tracer selection threshold inner _ hne hthreshold _ ih =>
      rw [guardedRoll_dropKeep, roll_dropKeep, requireItems_eq hne]
      apply guards_settle
      apply guards_check_ok
      apply (guards_rollEach ih).bind
      rintro os _ ⟨rfl, hlength, hos⟩
      have hvalues : ∀ n ∈ os.map fun o => o.value, Limits.Holds n := by
        simpa using hos
      apply Guards.check_bind (selection.spares_guardedReading
        (by simpa [hlength]) hvalues)
      rintro _ rfl
      exact guards_complete (clamp_holds _)
  | @explode id tracer comparator threshold inner hmembers _ hexplodable ih =>
      rw [guardedRoll_explode, roll_explode,
        requireItems_eq hexplodable.members_ne_nil]
      apply guards_settle
      apply guards_check_ok
      apply (guards_explodeSum hmembers ih Tally.counts_zero).bind
      rintro ⟨os, tally⟩ _ ⟨rfl, hcounts⟩
      dsimp only at hcounts ⊢
      rw [reading_eq_totalOf hcounts]
      exact guards_complete (clamp_holds _)

end Node
end DiceNotation
