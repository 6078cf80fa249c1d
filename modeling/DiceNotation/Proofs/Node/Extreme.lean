import Mathlib
import DiceNotation.Proofs.Node.Induction
import DiceNotation.Node.Bounds

/-!
# Bounds as numbers

Asking for a bound leaves traces and reports outcomes, but the bound itself
does not depend on what the memory holds.  Every node thus has two numbers, its
extremes, and it either has exact bounds or not.  The equations below compute
all three from the inner node, without a memory.
-/

namespace DiceNotation

namespace Evaluation

variable {α β : Type}

/-- The evaluation has the same result whatever the memory holds. -/
def Gives (x : Evaluation α) (a : α) : Prop :=
  ∀ m, (x.run m).1 = a

theorem gives_pure (a : α) : Gives (pure a) a :=
  fun _ => rfl

theorem Gives.bind
    {x : Evaluation α} {f : α → Evaluation β} {a : α} {b : β}
    (hx : Gives x a)
    (hf : Gives (f a) b) :
    Gives (x >>= f) b := by
  intro m
  have hrun : (x >>= f).run m = (f (x.run m).1).run (x.run m).2 := rfl
  rw [hrun, hx m]
  exact hf _

theorem Gives.settle
    {evaluate : Evaluation Reading} {r : Reading}
    (node : NodeId)
    (h : Gives evaluate r) :
    Gives (Memory.settle node evaluate) r.value := by
  intro m
  exact congrArg Reading.value (h _)

end Evaluation

namespace Reading

theorem value_total (parts : List Reading) :
    (total parts).value = clamp (parts.map value).sum :=
  rfl

theorem value_total_ofValue (values : List Int) :
    (total (values.map ofValue)).value = clamp values.sum := by
  rw [value_total, List.map_map]
  exact congrArg (fun l => clamp (List.sum l)) (List.map_id values)

end Reading

namespace Node

open Evaluation

/-- The least or the greatest value of the node. -/
def extreme (node : Node) (e : Extreme) : Int :=
  ((node.bound e).run Memory.empty).1

/-- Whether the node has exact bounds. -/
def isExact (node : Node) : Bool :=
  (node.hasExactBounds.run Memory.empty).1

theorem gives_report (node : Node) (tracer : Tracer)
    (method : Method) (r : Reading) :
    Gives (node.report tracer method r) () :=
  fun _ => rfl

theorem gives_boundEach
    {nodes : List Node} {e : Extreme} {f : Node → Int}
    (h : ∀ node ∈ nodes, Gives (node.bound e) (f node)) :
    Gives (boundEach nodes e) (nodes.map f) := by
  induction nodes with
  | nil => exact gives_pure []
  | cons node rest ih =>
      have hnode := h node List.mem_cons_self
      have hrest :=
        ih fun other hother => h other (List.mem_cons_of_mem _ hother)
      exact hnode.bind (hrest.bind (gives_pure _))

/-- Without evaluating anything, an explosion has the largest value as its
greatest value. -/
theorem bound_explode_greatest
    (node : NodeId) (tracer : Tracer) (comparator : Comparator)
    (threshold : Option Int) (inner : Node) :
    (explode node tracer comparator threshold inner).bound .greatest =
      Memory.settle node (do
        report (explode node tracer comparator threshold inner) tracer .maximum
          (Reading.ofValue Limits.highest)
        return Reading.ofValue Limits.highest) := by
  cases inner <;> rw [bound]

/-! ## One equation for every kind of node -/

section Equations

variable {id : NodeId} {tracer : Tracer} {inner : Node} {e : Extreme}

theorem gives_bound_pool
    {items : List Node}
    (h : ∀ item ∈ items, Gives (item.bound e) (item.extreme e)) :
    Gives ((pool id items).bound e)
      (clamp (items.map fun item => item.extreme e).sum) := by
  rw [← Reading.value_total_ofValue, bound]
  refine Gives.settle id ?_
  exact (gives_boundEach h).bind (gives_pure _)

theorem gives_bound_arithmetic
    {op : Operator} {operand : Nat}
    (h : ∀ e, Gives (inner.bound e) (inner.extreme e)) :
    Gives ((arithmetic id tracer op operand inner).bound e)
      (op.apply operand
        (op.boundAt operand inner.listedFaces (inner.extreme .least)
          (inner.extreme .greatest) e)) := by
  rw [bound]
  refine Gives.settle id (r := (Reading.ofValue _).operate op operand) ?_
  refine (h .least).bind ((h .greatest).bind ?_)
  exact (gives_report _ _ _ _).bind (gives_pure _)

theorem gives_bound_dropKeep
    {selection : Selection} {threshold : Nat}
    (h : ∀ member ∈ inner.members, Gives (member.bound e) (member.extreme e)) :
    Gives ((dropKeep id tracer selection threshold inner).bound e)
      (clamp (selection.choose threshold
        (inner.members.map fun member => member.extreme e)).sum) := by
  rw [← Reading.value_total_ofValue, bound_dropKeep]
  refine Gives.settle id ?_
  apply (gives_boundEach h).bind
  exact (gives_report _ _ _ _).bind (gives_pure _)

theorem gives_bound_explode_least
    {comparator : Comparator} {threshold : Option Int}
    (h : ∀ member ∈ inner.members,
      Gives (member.bound .least) (member.extreme .least)) :
    Gives ((explode id tracer comparator threshold inner).bound .least)
      (clamp (inner.members.map fun member => member.extreme .least).sum) := by
  rw [← Reading.value_total_ofValue, bound_explode_least]
  refine Gives.settle id ?_
  apply (gives_boundEach h).bind
  exact (gives_report _ _ _ _).bind (gives_pure _)

theorem gives_bound_explode_greatest
    {comparator : Comparator} {threshold : Option Int} :
    Gives ((explode id tracer comparator threshold inner).bound .greatest)
      Limits.highest := by
  rw [bound_explode_greatest]
  refine Gives.settle id (r := Reading.ofValue Limits.highest) ?_
  exact (gives_report _ _ _ _).bind (gives_pure _)

theorem gives_extreme
    {node : Node} {n : Int}
    (h : Gives (node.bound e) n) :
    Gives (node.bound e) (node.extreme e) := by
  intro m
  rw [h m, extreme, h Memory.empty]

end Equations

/-- Whatever the memory holds, a bound evaluates to the extreme of the
node. -/
theorem gives_bound (node : Node) (e : Extreme) :
    Gives (node.bound e) (node.extreme e) := by
  induction node using induction_members generalizing e with
  | die id d => exact gives_extreme ((gives_pure _).settle id)
  | pool id items ih =>
      exact gives_extreme (gives_bound_pool fun item hitem => ih item hitem e)
  | arithmetic id tracer op operand inner ih =>
      exact gives_extreme (gives_bound_arithmetic ih)
  | dropKeep id tracer selection threshold inner _ ih =>
      exact gives_extreme
        (gives_bound_dropKeep fun member hmember => ih member hmember e)
  | explode id tracer comparator threshold inner _ ih =>
      cases e with
      | least =>
          exact gives_extreme
            (gives_bound_explode_least fun member hmember =>
              ih member hmember .least)
      | greatest => exact gives_extreme gives_bound_explode_greatest

@[simp]
theorem extreme_die (id : NodeId) (d : Die) (e : Extreme) :
    (die id d).extreme e = d.bound e :=
  rfl

@[simp]
theorem extreme_pool (id : NodeId) (items : List Node) (e : Extreme) :
    (pool id items).extreme e =
      clamp (items.map fun item => item.extreme e).sum :=
  gives_bound_pool (fun item _ => gives_bound item e) _

@[simp]
theorem extreme_arithmetic
    (id : NodeId) (tracer : Tracer) (op : Operator)
    (operand : Nat) (inner : Node) (e : Extreme) :
    (arithmetic id tracer op operand inner).extreme e =
      op.apply operand
        (op.boundAt operand inner.listedFaces (inner.extreme .least)
          (inner.extreme .greatest) e) :=
  gives_bound_arithmetic (gives_bound inner) _

@[simp]
theorem extreme_dropKeep
    (id : NodeId) (tracer : Tracer) (selection : Selection) (threshold : Nat)
    (inner : Node) (e : Extreme) :
    (dropKeep id tracer selection threshold inner).extreme e =
      clamp (selection.choose threshold
        (inner.members.map fun member => member.extreme e)).sum :=
  gives_bound_dropKeep (fun member _ => gives_bound member e) _

@[simp]
theorem extreme_explode_least
    (id : NodeId) (tracer : Tracer) (comparator : Comparator)
    (threshold : Option Int) (inner : Node) :
    (explode id tracer comparator threshold inner).extreme .least =
      clamp (inner.members.map fun member => member.extreme .least).sum :=
  gives_bound_explode_least (fun member _ => gives_bound member .least) _

@[simp]
theorem extreme_explode_greatest
    (id : NodeId) (tracer : Tracer) (comparator : Comparator)
    (threshold : Option Int) (inner : Node) :
    (explode id tracer comparator threshold inner).extreme .greatest =
      Limits.highest :=
  gives_bound_explode_greatest _

/-! ## Exactness -/

/-- The condition under which an operator keeps the bounds of its inner node
exact. -/
def keepsExact (op : Operator) (operand : Nat) (inner : Node) : Bool :=
  !op.isEvenPower operand || !inner.listedFaces.isEmpty ||
    decide (0 ≤ inner.extreme .least) || decide (inner.extreme .greatest ≤ 0)

theorem gives_allExactBounds
    {nodes : List Node}
    (h : ∀ node ∈ nodes, Gives node.hasExactBounds node.isExact) :
    Gives (allExactBounds nodes) (nodes.all isExact) := by
  induction nodes with
  | nil => exact gives_pure true
  | cons node rest ih =>
      have hnode := h node List.mem_cons_self
      have hrest :=
        ih fun other hother => h other (List.mem_cons_of_mem _ hother)
      rw [allExactBounds, List.all_cons]
      apply hnode.bind
      cases node.isExact with
      | true => exact hrest
      | false => exact gives_pure false

theorem gives_hasExactBounds_arithmetic
    {id : NodeId} {tracer : Tracer} {op : Operator}
    {operand : Nat} {inner : Node}
    (h : Gives inner.hasExactBounds inner.isExact) :
    Gives (arithmetic id tracer op operand inner).hasExactBounds
      (inner.isExact && keepsExact op operand inner) := by
  rw [hasExactBounds]
  apply h.bind
  cases inner.isExact with
  | false => exact gives_pure false
  | true =>
      by_cases heasy :
        (!op.isEvenPower operand || !inner.listedFaces.isEmpty) = true
      · simp only [heasy, keepsExact]
        exact gives_pure true
      · simp only [Bool.eq_false_iff.mpr heasy, keepsExact]
        apply (gives_bound inner .least).bind
        by_cases hlow : 0 ≤ inner.extreme .least
        · simp only [hlow]
          exact gives_pure true
        · simp only [hlow]
          exact (gives_bound inner .greatest).bind (gives_pure _)

theorem gives_isExact
    {node : Node} {b : Bool}
    (h : Gives node.hasExactBounds b) :
    Gives node.hasExactBounds node.isExact := by
  intro m
  rw [h m, isExact, h Memory.empty]

/-- Whatever the memory holds, asking whether the bounds are exact has the
same answer. -/
theorem gives_hasExactBounds (node : Node) :
    Gives node.hasExactBounds node.isExact := by
  induction node using induction_members with
  | die id d => exact fun _ => rfl
  | pool id items ih => exact gives_isExact (gives_allExactBounds ih)
  | arithmetic id tracer op operand inner ih =>
      exact gives_isExact (gives_hasExactBounds_arithmetic ih)
  | dropKeep id tracer selection threshold inner ih _ => exact gives_isExact ih
  | explode => exact fun _ => rfl

@[simp]
theorem isExact_die (id : NodeId) (d : Die) : (die id d).isExact = true :=
  rfl

@[simp]
theorem isExact_pool (id : NodeId) (items : List Node) :
    (pool id items).isExact = items.all isExact :=
  gives_allExactBounds (fun item _ => gives_hasExactBounds item) _

@[simp]
theorem isExact_arithmetic
    (id : NodeId) (tracer : Tracer) (op : Operator)
    (operand : Nat) (inner : Node) :
    (arithmetic id tracer op operand inner).isExact =
      (inner.isExact && keepsExact op operand inner) :=
  gives_hasExactBounds_arithmetic (gives_hasExactBounds inner) _

@[simp]
theorem isExact_dropKeep
    (id : NodeId) (tracer : Tracer) (selection : Selection) (threshold : Nat)
    (inner : Node) :
    (dropKeep id tracer selection threshold inner).isExact = inner.isExact :=
  rfl

@[simp]
theorem isExact_explode
    (id : NodeId) (tracer : Tracer) (comparator : Comparator)
    (threshold : Option Int) (inner : Node) :
    (explode id tracer comparator threshold inner).isExact = false :=
  rfl

/-- A node has exact bounds if and only if all its members have. -/
theorem isExact_iff_members (node : Node) :
    node.isExact = true ↔ ∀ member ∈ node.members, member.isExact = true := by
  cases node <;> simp [members]

end Node
end DiceNotation
