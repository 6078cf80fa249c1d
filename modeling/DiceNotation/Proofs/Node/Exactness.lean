import DiceNotation.Proofs.Node.Constructed
import DiceNotation.Proofs.Node.Identity
import DiceNotation.Proofs.Operator

/-!
# Where exact bounds get lost

Only two kinds of nodes make bounds inexact: explosions, and even powers of a
range around zero, unless that range is a die with listed faces.  A node has
exact bounds if and only if neither occurs in it, at any depth.  An explosion
asks its members for exact bounds, so there is no explosion below another one.
-/

namespace DiceNotation
namespace Node

/-- The node is an explosion. -/
inductive IsExplosion : Node → Prop where
  | mk (id : NodeId) (tracer : Tracer) (comparator : Comparator)
      (threshold : Option Int) (inner : Node) :
      IsExplosion (explode id tracer comparator threshold inner)

/-- The node is a die whose faces are listed, or a fudge die. -/
inductive IsListed : Node → Prop where
  | custom (id : NodeId) (faces : List Int) : IsListed (die id (.custom faces))
  | fudge (id : NodeId) : IsListed (die id .fudge)

/-- The least value of the node is negative and its greatest value is positive,
whenever it is asked for them. -/
def AroundZero (node : Node) : Prop :=
  ∀ m, (node.minimum.run m).1 < 0 ∧ 0 < (node.maximum.run m).1

/-- The node raises a range around zero to an even power, without knowing the
values in the range. -/
inductive FoldsRange : Node → Prop where
  | mk {id : NodeId} {tracer : Tracer} {operand : Nat} {inner : Node} :
      0 < operand → Even operand → ¬inner.IsListed → inner.AroundZero →
      FoldsRange (arithmetic id tracer .power operand inner)

/-- The node makes its bounds inexact, whatever its inner node is. -/
def LosesExactness (node : Node) : Prop :=
  node.IsExplosion ∨ node.FoldsRange

/-! ## One node -/

theorem aroundZero_iff {node : Node} :
    node.AroundZero ↔ node.extreme .least < 0 ∧ 0 < node.extreme .greatest := by
  constructor
  · intro h
    exact h Memory.empty
  · intro h m
    rw [minimum, maximum, gives_bound node .least m,
      gives_bound node .greatest m]
    exact h

theorem listedFaces_eq_nil_iff {node : Node} (h : node.WellFormed) :
    node.listedFaces = [] ↔ ¬node.IsListed := by
  constructor
  · intro hnil hlisted
    cases hlisted with
    | custom id faces =>
        cases h with
        | die hd => exact hd.1 hnil
    | fudge id => exact absurd hnil (List.cons_ne_nil _ _)
  · intro hlisted
    cases node with
    | die id d =>
        cases d with
        | sided => rfl
        | custom faces => exact absurd (.custom id faces) hlisted
        | fudge => exact absurd (.fudge id) hlisted
    | _ => rfl

/-- An operator keeps bounds exact if and only if it does not fold the range of
its inner node. -/
theorem keepsExact_iff
    {op : Operator} {operand : Nat} {inner : Node}
    (h : inner.WellFormed)
    (id : NodeId) (tracer : Tracer) :
    keepsExact op operand inner = true ↔
      ¬(arithmetic id tracer op operand inner).FoldsRange := by
  rw [← Bool.not_eq_false, not_iff_not, keepsExact]
  simp only [Bool.or_eq_false_iff, Bool.not_eq_false',
    decide_eq_false_iff_not, not_le,
    Operator.isEvenPower_iff, List.isEmpty_iff, listedFaces_eq_nil_iff h]
  constructor
  · rintro ⟨⟨⟨⟨rfl, hpos, heven⟩, hlisted⟩, hlow⟩, hhigh⟩
    exact .mk hpos heven hlisted (aroundZero_iff.mpr ⟨hlow, hhigh⟩)
  · rintro ⟨hpos, heven, hlisted, haround⟩
    obtain ⟨hlow, hhigh⟩ := aroundZero_iff.mp haround
    exact ⟨⟨⟨⟨rfl, hpos, heven⟩, hlisted⟩, hlow⟩, hhigh⟩

/-! ## The whole tree -/

/-- What holds of all parts of a node holds of the node and of all parts of its
children. -/
theorem forall_occurs_iff {P : Node → Prop} {node : Node} :
    (∀ part, Occurs part node → P part) ↔
      P node ∧ ∀ child ∈ node.children, ∀ part, Occurs part child → P part := by
  constructor
  · intro h
    exact ⟨h node (.here node),
      fun child hchild part hpart => h part (hpart.inside hchild)⟩
  · rintro ⟨hnode, hchildren⟩ part hpart
    rcases occurs_iff.mp hpart with rfl | ⟨child, hchild, hoccurs⟩
    · exact hnode
    · exact hchildren child hchild part hoccurs

/-- The bounds of a well-formed node are exact if and only if no part of the
node makes them inexact. -/
theorem isExact_iff_forall_occurs {node : Node} (h : node.WellFormed) :
    node.isExact = true ↔ ∀ part, Occurs part node → ¬part.LosesExactness := by
  induction node using induction_members with
  | die id d =>
      rw [forall_occurs_iff, isExact_die]
      refine iff_of_true rfl ⟨?_,
        fun child hchild => absurd hchild List.not_mem_nil⟩
      rintro (h | h) <;> cases h
  | pool id items ih =>
      have hitems : ∀ item ∈ items, item.WellFormed :=
        (wellFormed_iff_members _).mp h
      have hpool : ¬(pool id items).LosesExactness := by
        rintro (h | h) <;> cases h
      rw [forall_occurs_iff, isExact_pool, List.all_eq_true,
        and_iff_right hpool]
      exact forall₂_congr fun item hitem => ih item hitem (hitems item hitem)
  | arithmetic id tracer op operand inner ih =>
      have hinner : inner.WellFormed := (wellFormed_arithmetic_iff.mp h).1
      have hnode : (arithmetic id tracer op operand inner).LosesExactness ↔
          (arithmetic id tracer op operand inner).FoldsRange := by
        rw [LosesExactness, or_iff_right]
        rintro ⟨⟩
      rw [forall_occurs_iff, isExact_arithmetic, Bool.and_eq_true, hnode,
        keepsExact_iff hinner id tracer, ih hinner, children,
        List.forall_mem_singleton, and_comm]
  | dropKeep id tracer selection threshold inner ih _ =>
      have hinner : inner.WellFormed := (wellFormed_dropKeep_iff.mp h).1
      have hnode :
          ¬(dropKeep id tracer selection threshold inner).LosesExactness := by
        rintro (h | h) <;> cases h
      rw [forall_occurs_iff, isExact_dropKeep, ih hinner, children,
        List.forall_mem_singleton, and_iff_right hnode]
  | explode id tracer comparator threshold inner _ _ =>
      rw [isExact_explode]
      refine iff_of_false Bool.false_ne_true fun hall => ?_
      exact hall _ (.here _) (Or.inl (.mk id tracer comparator threshold inner))

/-- What a well-formed explosion explodes has exact bounds. -/
theorem isExact_of_explosion
    {id : NodeId} {tracer : Tracer} {comparator : Comparator}
    {threshold : Option Int} {inner : Node}
    (h : (explode id tracer comparator threshold inner).WellFormed) :
    inner.isExact = true :=
  (isExact_iff_members inner).mpr
    (wellFormed_explode_iff.mp h).2.2.exact_members

/-- All parts of a well-formed node are well formed. -/
theorem WellFormed.of_occurs
    {part node : Node}
    (h : node.WellFormed)
    (hpart : Occurs part node) :
    part.WellFormed := by
  induction hpart with
  | here => exact h
  | @inside child node hpart hchild ih =>
      apply ih
      cases node with
      | die => exact absurd hchild List.not_mem_nil
      | pool id items => exact (wellFormed_iff_members _).mp h child hchild
      | arithmetic =>
          rw [List.mem_singleton.mp hchild]
          exact (wellFormed_arithmetic_iff.mp h).1
      | dropKeep =>
          rw [List.mem_singleton.mp hchild]
          exact (wellFormed_dropKeep_iff.mp h).1
      | explode =>
          rw [List.mem_singleton.mp hchild]
          exact (wellFormed_explode_iff.mp h).1

/-- A well-formed explosion has no explosion below it. -/
theorem not_isExplosion_of_below
    {outer part : Node}
    (h : outer.WellFormed)
    (houter : outer.IsExplosion)
    (hpart : Present outer.children part) :
    ¬part.IsExplosion := by
  cases houter with
  | mk id tracer comparator threshold inner =>
      have hinner : inner.WellFormed := (wellFormed_explode_iff.mp h).1
      have hexact :=
        (isExact_iff_forall_occurs hinner).mp (isExact_of_explosion h)
      intro hexplosion
      exact hexact part (present_singleton_iff.mp hpart) (Or.inl hexplosion)

/-- A node that was constructed has exact bounds, whenever it is asked, if and
only if there is neither an explosion nor an even power of an unlisted range
around zero in it.  No explosion in it is below another explosion. -/
theorem hasExactBounds_iff_of_constructed {node : Node} (h : Constructed node) :
    (∀ m, (node.hasExactBounds.run m).1 = true ↔
        ∀ part, Occurs part node → ¬part.IsExplosion ∧ ¬part.FoldsRange) ∧
      ∀ outer, Occurs outer node → outer.IsExplosion →
        ∀ part, Present outer.children part → ¬part.IsExplosion := by
  have hnode : node.WellFormed := h.wellFormed
  constructor
  · intro m
    rw [gives_hasExactBounds node m, isExact_iff_forall_occurs hnode]
    exact forall₂_congr fun part _ => not_or
  · intro outer houter hexplosion part hpart
    exact not_isExplosion_of_below (hnode.of_occurs houter) hexplosion hpart

/-- A fudge die in a pool of its own no longer lists its faces, so the square of
that pool is inexact. -/
theorem squared_pool_of_fudge_die_not_exact :
    ∃ node, Constructed node ∧ (∀ m, (node.hasExactBounds.run m).1 = false) ∧
      node.FoldsRange := by
  have hdie : (Build.die .fudge).Returns (die 0 .fudge) := ⟨Memory.empty, rfl⟩
  have hpool :
      (Build.pool ([die 0 .fudge].map some)).Returns (pool 1 [die 0 .fudge]) :=
    ⟨⟨1, Traces.none, #[]⟩, rfl⟩
  have hsquare : (Build.arithmetic (some (pool 1 [die 0 .fudge])) .power 2
      Tracer.silent).Returns
      (arithmetic 2 Tracer.silent .power 2 (pool 1 [die 0 .fudge])) :=
    ⟨⟨2, Traces.none, #[]⟩, rfl⟩
  have hnode : Constructed (arithmetic 2 Tracer.silent .power 2
      (pool 1 [die 0 .fudge])) := by
    refine .arithmetic (.pool ?_ hpool) (by decide) hsquare
    rw [List.forall_mem_singleton]
    exact .fudge hdie
  have hlisted : ¬(pool 1 [die 0 .fudge]).IsListed := by
    rintro ⟨⟩
  have haround : (pool 1 [die 0 .fudge]).AroundZero :=
    aroundZero_iff.mpr (by decide)
  have hfolds : (arithmetic 2 Tracer.silent .power 2
      (pool 1 [die 0 .fudge])).FoldsRange :=
    .mk (by decide) (by decide) hlisted haround
  refine ⟨_, hnode, ?_, hfolds⟩
  intro m
  rw [← Bool.not_eq_true, (hasExactBounds_iff_of_constructed hnode).1 m]
  intro hall
  exact (hall _ (.here _)).2 hfolds

end Node
end DiceNotation
