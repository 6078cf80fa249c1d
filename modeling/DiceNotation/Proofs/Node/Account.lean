import DiceNotation.Proofs.Node.Bare

/-!
# What bounds leave behind

Asking for a bound leaves a trace on the node that explains the bound.  The
account of a bound is the bound together with this trace.  Like the bound
itself, it does not depend on what the memory holds, and it only depends on the
structure of the node.
-/

namespace DiceNotation
namespace Node

open Evaluation

/-- The least or the greatest value of the node with the trace that explains
it. -/
def account : Node → Extreme → Reading
  | die _ d, e => .ofValue (d.bound e)
  | pool _ items, e =>
      .total ((items.map fun item => item.extreme e).map .ofValue)
  | arithmetic _ _ op operand inner, e =>
      (Reading.ofValue (op.boundAt operand inner.listedFaces
        (inner.extreme .least) (inner.extreme .greatest) e)).operate op operand
  | dropKeep _ _ selection threshold inner, e =>
      .total ((selection.choose threshold
        (inner.members.map fun member => member.extreme e)).map .ofValue)
  | explode _ _ _ _ _, .greatest => .ofValue Limits.highest
  | explode _ _ _ _ inner, .least =>
      .total ((inner.members.map fun member =>
        member.extreme .least).map .ofValue)

/-- Asking for a bound is an evaluation of the node, and it comes to the
account of the bound. -/
theorem exists_settle_bound (node : Node) (e : Extreme) :
    ∃ x, node.bound e = Memory.settle node.id x ∧ x.Gives (node.account e) := by
  have hvalues (nodes : List Node) (e : Extreme) :
      (boundEach nodes e).Gives (nodes.map fun node => node.extreme e) :=
    gives_boundEach fun node _ => gives_bound node e
  cases node with
  | die id d => exact ⟨_, bound.eq_def _ _, gives_pure _⟩
  | pool id items =>
      exact ⟨_, bound.eq_def _ _, (hvalues items e).bind (gives_pure _)⟩
  | arithmetic id tracer op operand inner =>
      refine ⟨_, bound.eq_def _ _, (gives_bound inner .least).bind ?_⟩
      refine (gives_bound inner .greatest).bind ?_
      exact (gives_report _ _ _ _).bind (gives_pure _)
  | dropKeep id tracer selection threshold inner =>
      refine ⟨_, bound_dropKeep _ _ _ _ _ _, (hvalues inner.members e).bind ?_⟩
      exact (gives_report _ _ _ _).bind (gives_pure _)
  | explode id tracer comparator threshold inner =>
      cases e with
      | least =>
          refine ⟨_, bound_explode_least _ _ _ _ _,
            (hvalues inner.members .least).bind ?_⟩
          exact (gives_report _ _ _ _).bind (gives_pure _)
      | greatest =>
          refine ⟨_, bound_explode_greatest _ _ _ _ _, ?_⟩
          exact (gives_report _ _ _ _).bind (gives_pure _)

theorem value_account (node : Node) (e : Extreme) :
    (node.account e).value = node.extreme e := by
  obtain ⟨x, hbound, hx⟩ := exists_settle_bound node e
  rw [extreme, hbound]
  exact (hx.settle node.id Memory.empty).symm

/-- Whatever the memory holds, a bound is returned and traced as its account
says. -/
theorem run_bound (node : Node) (e : Extreme) (m : Memory) :
    ((node.bound e).run m).1 = (node.account e).value ∧
      ((node.bound e).run m).2.trace node.id = (node.account e).trace := by
  obtain ⟨x, hbound, hx⟩ := exists_settle_bound node e
  constructor
  · rw [gives_bound node e m, value_account]
  · rw [hbound, Memory.run_settle]
    exact (Traces.get_set_self _ _ _).trans (congrArg Reading.trace (hx _))

/-- The account of a bound only depends on the structure of the node. -/
theorem account_bare (node : Node) (e : Extreme) :
    node.bare.account e = node.account e := by
  have hvalues (nodes : List Node) (e : Extreme) :
      (nodes.map bare).map (fun node => node.extreme e) =
        nodes.map fun node => node.extreme e := by
    rw [List.map_map]
    exact List.map_congr_left fun node _ => extreme_bare node e
  cases node with
  | die id d => rfl
  | pool id items => rw [bare_pool, account, account, hvalues]
  | arithmetic id tracer op operand inner =>
      rw [bare, account, account, listedFaces_bare, extreme_bare, extreme_bare]
  | dropKeep id tracer selection threshold inner =>
      rw [bare, account, account, members_bare, hvalues]
  | explode id tracer comparator threshold inner =>
      rw [bare]
      cases e with
      | least => rw [account, account, members_bare, hvalues]
      | greatest => rfl

end Node
end DiceNotation
