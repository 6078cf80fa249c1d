import DiceNotation.Proofs.Node.Constructed

/-!
# Bare nodes

A bare node is a node without its identities and its tracers.  Two nodes with
the same bare node have the same structure.  Bounds, exactness and the
conditions of the constructors only look at the structure.
-/

namespace DiceNotation
namespace Node

mutual

/-- The structure of the node: all identities are zero and all tracers keep
nothing. -/
def bare : Node → Node
  | die _ d => die 0 d
  | pool _ items => pool 0 (bareItems items)
  | arithmetic _ _ op operand inner =>
      arithmetic 0 Tracer.silent op operand (bare inner)
  | dropKeep _ _ selection threshold inner =>
      dropKeep 0 Tracer.silent selection threshold (bare inner)
  | explode _ _ comparator threshold inner =>
      explode 0 Tracer.silent comparator threshold (bare inner)

/-- The structures of nodes, one by one. -/
def bareItems : List Node → List Node
  | [] => []
  | item :: rest => bare item :: bareItems rest

end

theorem bareItems_eq_map (items : List Node) :
    bareItems items = items.map bare := by
  induction items with
  | nil => rfl
  | cons item rest ih => rw [bareItems, ih, List.map_cons]

theorem bare_pool (id : NodeId) (items : List Node) :
    (pool id items).bare = pool 0 (items.map bare) := by
  rw [bare, bareItems_eq_map]

/-- A copy has the structure of the original. -/
theorem bare_withId (node : Node) (id : NodeId) :
    (node.withId id).bare = node.bare := by
  cases node <;> rfl

theorem members_bare (node : Node) :
    node.bare.members = node.members.map bare := by
  cases node with
  | pool id items =>
      rw [bare_pool]
      rfl
  | _ => simp only [bare, members, List.map_cons, List.map_nil]

theorem listedFaces_bare (node : Node) :
    node.bare.listedFaces = node.listedFaces := by
  cases node <;> simp only [bare, listedFaces]

theorem die?_bare (node : Node) : node.bare.die? = node.die? := by
  cases node <;> simp only [bare, die?]

theorem chainLength_bare (node : Node) :
    node.bare.chainLength = node.chainLength := by
  induction node using induction_members with
  | arithmetic id tracer op operand inner ih =>
      rw [bare, chainLength, chainLength, ih]
  | _ => simp only [bare, chainLength]

theorem binding_bare (node : Node) : node.bare.binding = node.binding := by
  induction node using induction_members with
  | pool id items ih =>
      rw [bare_pool]
      match items with
      | [] => rfl
      | [item] =>
          rw [List.map_singleton, binding, binding]
          exact ih item List.mem_cons_self
      | first :: second :: rest =>
          simp only [List.map_cons, binding, die?_bare, List.all_cons,
            List.all_map, Function.comp_def]
          rfl
  | _ => simp only [bare, binding]

/-- The written form of a node only depends on its structure. -/
theorem render_bare (node : Node) : node.bare.render = node.render := by
  induction node using induction_members with
  | die id d => rfl
  | pool id items ih =>
      rw [bare_pool, render, render, summands_eq_map, summands_eq_map,
        List.map_map]
      congr 1
      apply List.map_congr_left
      intro item hitem
      rw [Function.comp_apply, die?_bare, ih item hitem]
  | arithmetic id tracer op operand inner ih =>
      rw [bare, render, render, binding_bare, chainLength_bare, ih]
  | dropKeep id tracer selection threshold inner ih =>
      rw [bare, render, render, binding_bare, ih]
  | explode id tracer comparator threshold inner ih =>
      rw [bare, render.eq_def, render.eq_def]
      dsimp only
      rw [binding_bare, ih]

/-- The bounds of a node only depend on its structure. -/
theorem extreme_bare (node : Node) (e : Extreme) :
    node.bare.extreme e = node.extreme e := by
  induction node using induction_members generalizing e with
  | die id d => rfl
  | pool id items ih =>
      rw [bare_pool, extreme_pool, extreme_pool, List.map_map]
      congr 2
      exact List.map_congr_left fun item hitem => ih item hitem e
  | arithmetic id tracer op operand inner ih =>
      rw [bare, extreme_arithmetic, extreme_arithmetic,
        listedFaces_bare, ih, ih]
  | dropKeep id tracer selection threshold inner _ ih =>
      rw [bare, extreme_dropKeep, extreme_dropKeep, members_bare, List.map_map]
      congr 3
      exact List.map_congr_left fun member hmember => ih member hmember e
  | explode id tracer comparator threshold inner _ ih =>
      rw [bare]
      cases e with
      | least =>
          rw [extreme_explode_least, extreme_explode_least, members_bare,
            List.map_map]
          congr 2
          exact List.map_congr_left fun member hmember =>
            ih member hmember .least
      | greatest => rw [extreme_explode_greatest, extreme_explode_greatest]

/-- Whether the bounds are exact only depends on the structure. -/
theorem isExact_bare (node : Node) : node.bare.isExact = node.isExact := by
  induction node using induction_members with
  | die id d => rfl
  | pool id items ih =>
      rw [bare_pool, isExact_pool, isExact_pool, List.all_map, Bool.eq_iff_iff,
        List.all_eq_true, List.all_eq_true]
      exact forall₂_congr fun item hitem => by
        rw [Function.comp_apply, ih item hitem]
  | arithmetic id tracer op operand inner ih =>
      rw [bare, isExact_arithmetic, isExact_arithmetic, ih, keepsExact,
        keepsExact, listedFaces_bare, extreme_bare, extreme_bare]
  | dropKeep id tracer selection threshold inner ih _ =>
      rw [bare, isExact_dropKeep, isExact_dropKeep, ih]
  | explode id tracer comparator threshold inner _ _ =>
      rw [bare, isExact_explode, isExact_explode]

theorem endless_bare {comparator : Comparator}
    {threshold : Option Int} {node : Node} :
    Endless comparator threshold node.bare ↔
      Endless comparator threshold node := by
  rw [Endless, Endless, limit, limit, extreme_bare, extreme_bare]

/-- Whether an explosion is accepted only depends on the structure. -/
theorem explodable_bare {comparator : Comparator}
    {threshold : Option Int} {inner : Node} :
    Explodable comparator threshold inner.bare ↔
      Explodable comparator threshold inner := by
  have hmembers (P : Node → Prop) : (∀ member ∈ inner.bare.members, P member) ↔
      ∀ member ∈ inner.members, P member.bare := by
    rw [members_bare, List.forall_mem_map]
  have hnil : inner.bare.members = [] ↔ inner.members = [] := by
    rw [members_bare, List.map_eq_nil_iff]
  constructor
  · rintro ⟨hne, hexact, hinner, hends⟩
    rw [hmembers] at hexact hends
    simp only [isExact_bare] at hexact
    simp only [endless_bare] at hinner hends
    exact ⟨fun h => hne (hnil.mpr h), hexact, hinner, hends⟩
  · rintro ⟨hne, hexact, hinner, hends⟩
    refine ⟨fun h => hne (hnil.mp h), ?_,
      fun h => hinner (endless_bare.mp h), ?_⟩
    · rw [hmembers]
      simpa only [isExact_bare] using hexact
    · rw [hmembers]
      simpa only [endless_bare] using hends

/-- The structure of a well-formed node is well formed. -/
theorem WellFormed.bare {node : Node} (h : node.WellFormed) :
    node.bare.WellFormed := by
  induction h with
  | die hd =>
      rw [Node.bare]
      exact .die hd
  | pool _ ih =>
      rw [bare_pool]
      exact .pool (List.forall_mem_map.mpr ih)
  | arithmetic _ hoperand hdivide ih =>
      rw [Node.bare]
      exact .arithmetic ih hoperand hdivide
  | @dropKeep id tracer selection threshold inner _ hne hlength hhigh ih =>
      rw [Node.bare]
      refine .dropKeep ?_ ?_ ?_ hhigh
      · rw [members_bare]
        exact List.forall_mem_map.mpr ih
      · rw [members_bare]
        intro h
        exact hne (List.map_eq_nil_iff.mp h)
      · rw [members_bare, List.length_map]
        exact hlength
  | @explode id tracer comparator threshold inner _ ht hexplodable ih =>
      rw [Node.bare]
      refine .explode ?_ ht (explodable_bare.mpr hexplodable)
      rw [members_bare]
      exact List.forall_mem_map.mpr ih

end Node
end DiceNotation
