import DiceNotation.Proofs.Safety.Guards

/-!
# Guarded bounds

The evaluation of bounds with guarded operations: a sum is tallied item by item,
a modifier insists on a pool with items, and operators, faces and slices are
checked.  For well-formed nodes it guards the plain evaluation.
-/

namespace DiceNotation

namespace Evaluation

/-- The guarded evaluation of a node, which empties and sets its trace. -/
def guardedSettle (node : NodeId)
    (evaluate : ExceptT Fault Evaluation Reading) :
    ExceptT Fault Evaluation Int := do
  (Memory.setTrace node [] : Evaluation Unit)
  let r ← evaluate
  (Memory.setTrace node r.trace : Evaluation Unit)
  return r.value

/-- The guarded result is the plain one, and it is a value. -/
abbrev SameValue (n n' : Int) : Prop :=
  n = n' ∧ Limits.Holds n'

/-- The guarded reading is the plain one, and its value is in range. -/
abbrev SameBound (r r' : Reading) : Prop :=
  r = r' ∧ Limits.Holds r'.value

theorem guards_settle
    {x : ExceptT Fault Evaluation Reading} {y : Evaluation Reading}
    (node : NodeId)
    (h : Guards SameBound x y) :
    Guards SameValue (guardedSettle node x) (Memory.settle node y) := by
  apply (guards_lift _).bind
  intro _ _ _
  apply h.bind
  rintro r _ ⟨rfl, hr⟩
  apply (guards_lift _).bind
  intro _ _ _
  exact guards_pure ⟨rfl, hr⟩

end Evaluation

namespace Node

open Evaluation

/-- The node as a pool: itself, or a pool with the node as its only item. -/
def inPool : Node → Node
  | pool id items => pool id items
  | node => pool node.id [node]

/-- A modifier needs a pool that is not empty. -/
def requireItems (node : Node) : Except Fault Unit :=
  match node.inPool with
  | pool _ (_ :: _) => .ok ()
  | _ => .error .noPool

open Fault in
mutual

/-- The guarded form of a bound. -/
def guardedBound : Node → Extreme → ExceptT Fault Evaluation Int
  | die id d, e =>
      guardedSettle id do
        let face ← check (d.guardedBound e)
        return Reading.ofValue face
  | pool id items, e =>
      guardedSettle id do
        let (values, tally) ← guardedSumBounds items e Tally.zero
        return tally.reading (values.map Reading.ofValue)
  | arithmetic id tracer op operand inner, e =>
      guardedSettle id do
        let low ← guardedBound inner .least
        let high ← guardedBound inner .greatest
        let start ← check
          (op.guardedBoundAt operand inner.listedFaces low high e)
        let r ← check ((Reading.ofValue start).guardedOperate op operand)
        report (arithmetic id tracer op operand inner) tracer e.method r
        return r
  | dropKeep id tracer selection threshold (pool poolId items), e =>
      guardedSettle id do
        check (requireItems (pool poolId items))
        let values ← guardedBoundEach items e
        let r ← check (selection.guardedReading threshold values)
        report (dropKeep id tracer selection threshold (pool poolId items))
          tracer e.method r
        return r
  | dropKeep id tracer selection threshold inner, e =>
      guardedSettle id do
        check (requireItems inner)
        let value ← guardedBound inner e
        let r ← check (selection.guardedReading threshold [value])
        report (dropKeep id tracer selection threshold inner) tracer e.method r
        return r
  | explode id tracer comparator threshold inner, .greatest =>
      guardedSettle id do
        let r := Reading.ofValue Limits.highest
        report (explode id tracer comparator threshold inner) tracer .maximum r
        return r
  | explode id tracer comparator threshold (pool poolId items), .least =>
      guardedSettle id do
        check (requireItems (pool poolId items))
        let (values, tally) ← guardedSumBounds items .least Tally.zero
        let r := tally.reading (values.map Reading.ofValue)
        report (explode id tracer comparator threshold (pool poolId items))
          tracer .minimum r
        return r
  | explode id tracer comparator threshold inner, .least =>
      guardedSettle id do
        check (requireItems inner)
        let value ← guardedBound inner .least
        let tally ← check (Tally.zero.add value)
        let r := tally.reading [Reading.ofValue value]
        report (explode id tracer comparator threshold inner) tracer .minimum r
        return r
termination_by structural node => node

/-- The guarded bounds of nodes, from left to right. -/
def guardedBoundEach : List Node → Extreme → ExceptT Fault Evaluation (List Int)
  | [], _ => return []
  | node :: rest, e => do
      let value ← guardedBound node e
      let values ← guardedBoundEach rest e
      return value :: values
termination_by structural nodes => nodes

/-- The guarded bounds of nodes, from left to right, added to a tally. -/
def guardedSumBounds :
    List Node → Extreme → Tally → ExceptT Fault Evaluation (List Int × Tally)
  | [], _, tally => return ([], tally)
  | node :: rest, e, tally => do
      let value ← guardedBound node e
      let tally ← check (tally.add value)
      let (values, tally) ← guardedSumBounds rest e tally
      return (value :: values, tally)
termination_by structural nodes => nodes

end

/-- A selection evaluates the members of its inner node, whatever that node
is. -/
theorem guardedBound_dropKeep
    (node : NodeId) (tracer : Tracer) (selection : Selection) (threshold : Nat)
    (inner : Node) (e : Extreme) :
    guardedBound (dropKeep node tracer selection threshold inner) e =
      guardedSettle node (do
        Fault.check (requireItems inner)
        let values ← guardedBoundEach inner.members e
        let r ← Fault.check (selection.guardedReading threshold values)
        report (dropKeep node tracer selection threshold inner)
          tracer e.method r
        return r) := by
  cases inner <;> simp [guardedBound, guardedBoundEach, members]

/-- An explosion sums the least values of the members of its inner node,
whatever that node is. -/
theorem guardedBound_explode_least
    (node : NodeId) (tracer : Tracer) (comparator : Comparator)
    (threshold : Option Int) (inner : Node) :
    guardedBound (explode node tracer comparator threshold inner) .least =
      guardedSettle node (do
        Fault.check (requireItems inner)
        let (values, tally) ← guardedSumBounds inner.members .least Tally.zero
        let r := tally.reading (values.map Reading.ofValue)
        report (explode node tracer comparator threshold inner)
          tracer .minimum r
        return r) := by
  cases inner <;> simp [guardedBound, guardedSumBounds, members]

theorem guardedBound_explode_greatest
    (node : NodeId) (tracer : Tracer) (comparator : Comparator)
    (threshold : Option Int) (inner : Node) :
    guardedBound (explode node tracer comparator threshold inner) .greatest =
      guardedSettle node (do
        report (explode node tracer comparator threshold inner) tracer .maximum
          (Reading.ofValue Limits.highest)
        return Reading.ofValue Limits.highest) := by
  cases inner <;> rw [guardedBound]

theorem requireItems_eq {node : Node} (h : node.members ≠ []) :
    requireItems node = .ok () := by
  cases node with
  | pool id items =>
      obtain ⟨item, rest, rfl⟩ := List.exists_cons_of_ne_nil h
      rfl
  | _ => rfl

/-- A last step that reports the reading has nothing to check. -/
theorem guards_reported
    {node : Node} {tracer : Tracer} {method : Method} {r : Reading}
    (hr : Limits.Holds r.value) :
    Guards SameBound
      (do
        report node tracer method r
        return r)
      (do
        report node tracer method r
        return r) := by
  apply (guards_lift _).bind
  intro _ _ _
  exact guards_pure ⟨rfl, hr⟩

section Nodes

variable {nodes : List Node} {e : Extreme}

theorem guards_boundEach
    (h :
      ∀ node ∈ nodes, Guards SameValue (guardedBound node e) (bound node e)) :
    Guards
      (fun ns ns' =>
        ns = ns' ∧ ns'.length = nodes.length ∧ ∀ n ∈ ns', Limits.Holds n)
      (guardedBoundEach nodes e) (boundEach nodes e) := by
  induction nodes with
  | nil => exact guards_pure (by simp)
  | cons node rest ih =>
      rw [List.forall_mem_cons] at h
      rw [guardedBoundEach, boundEach]
      apply h.1.bind
      rintro n _ ⟨rfl, hn⟩
      apply (ih h.2).bind
      rintro ns _ ⟨rfl, hlength, hns⟩
      exact guards_pure ⟨rfl,
        by simp [hlength], List.forall_mem_cons.mpr ⟨hn, hns⟩⟩

/-- The tally of a sum counts what was counted before and the bounds of the
nodes. -/
theorem guards_sumBounds
    {tally : Tally} {before : List Int}
    (h : ∀ node ∈ nodes, Guards SameValue (guardedBound node e) (bound node e))
    (htally : tally.Counts before) :
    Guards (fun p ns => p.1 = ns ∧ p.2.Counts (before ++ ns))
      (guardedSumBounds nodes e tally) (boundEach nodes e) := by
  induction nodes generalizing tally before with
  | nil => exact guards_pure ⟨rfl, by simpa using htally⟩
  | cons node rest ih =>
      rw [List.forall_mem_cons] at h
      rw [guardedSumBounds, boundEach]
      apply h.1.bind
      rintro n _ ⟨rfl, hn⟩
      apply Guards.check_bind (Tally.spares_add htally hn)
      intro tally' htally'
      apply (ih h.2 htally').bind
      rintro ⟨ns, tally''⟩ _ ⟨rfl, hcounts⟩
      exact guards_pure ⟨rfl, by simpa using hcounts⟩

/-- A sum of bounds is read from its tally. -/
theorem guards_total
    {f : Reading → ExceptT Fault Evaluation Reading}
    {g : Reading → Evaluation Reading}
    (h : ∀ node ∈ nodes, Guards SameValue (guardedBound node e) (bound node e))
    (hfg : ∀ r : Reading, Limits.Holds r.value → Guards SameBound (f r) (g r)) :
    Guards SameBound
      (do
        let (values, tally) ← guardedSumBounds nodes e Tally.zero
        f (tally.reading (values.map Reading.ofValue)))
      (do
        let values ← boundEach nodes e
        g (Reading.total (values.map Reading.ofValue))) := by
  apply (guards_sumBounds h Tally.counts_zero).bind
  rintro ⟨ns, tally⟩ _ ⟨rfl, hcounts⟩
  have hparts : tally.Counts ((ns.map Reading.ofValue).map Reading.value) := by
    simpa [Function.comp_def, Reading.ofValue] using hcounts
  dsimp only
  rw [Tally.reading_eq_total hparts]
  exact hfg _ (clamp_holds _)

end Nodes

/-- The guarded bounds of a well-formed node guard the plain ones. -/
theorem guards_bound
    {node : Node}
    (hnode : node.WellFormed)
    (e : Extreme) :
    Guards SameValue (guardedBound node e) (bound node e) := by
  induction hnode generalizing e with
  | @die id d hd =>
      rw [guardedBound, bound, Die.guardedBound_eq hd]
      have hholds := holds_extreme (.die hd : (die id d).WellFormed) e
      exact guards_settle id (guards_pure ⟨rfl, hholds⟩)
  | @pool id items _ ih =>
      rw [guardedBound, bound]
      apply guards_settle
      exact guards_total (fun item hitem => ih item hitem e)
        fun r hr => guards_pure ⟨rfl, hr⟩
  | @arithmetic id tracer op operand inner hinner hhigh hdivide ih =>
      have hfits : op.Fits operand := ⟨hhigh, hdivide⟩
      have hfaces : ∀ face ∈ inner.listedFaces, Limits.Holds face :=
        fun face hface => holds_of_mem_listedFaces hinner hface
      rw [guardedBound, bound]
      apply guards_settle
      apply (ih .least).bind
      rintro low _ ⟨rfl, hlow⟩
      apply (ih .greatest).bind
      rintro high _ ⟨rfl, hhigh⟩
      have hstart : Limits.Holds (op.boundAt operand inner.listedFaces _ _ e) :=
        Operator.holds_boundAt hfaces hlow hhigh e
      rw [hfits.guardedBoundAt_eq hfaces hlow hhigh]
      apply guards_check_ok
      rw [Reading.guardedOperate_eq hfits hstart]
      apply guards_check_ok
      exact guards_reported (Operator.holds_apply hstart)
  | @dropKeep id tracer selection threshold inner _ hne hthreshold _ ih =>
      rw [guardedBound_dropKeep, bound_dropKeep, requireItems_eq hne]
      apply guards_settle
      apply guards_check_ok
      apply (guards_boundEach fun member hmember => ih member hmember e).bind
      rintro ns _ ⟨rfl, hlength, hns⟩
      apply Guards.check_bind
        (selection.spares_guardedReading (hthreshold.trans_eq hlength.symm) hns)
      rintro _ rfl
      exact guards_reported (clamp_holds _)
  | @explode id tracer comparator threshold inner _ _ hexplodable ih =>
      cases e with
      | least =>
          rw [guardedBound_explode_least, bound_explode_least,
            requireItems_eq hexplodable.members_ne_nil]
          apply guards_settle
          apply guards_check_ok
          exact guards_total (fun member hmember => ih member hmember .least)
            fun r hr => guards_reported hr
      | greatest =>
          rw [guardedBound_explode_greatest, bound_explode_greatest]
          exact guards_settle id (guards_reported (by decide))

end Node
end DiceNotation
