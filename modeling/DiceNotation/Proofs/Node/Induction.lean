import DiceNotation.Node.Basic

/-!
# Induction over dice expressions

Modifiers filter or explode the members of their inner node, which for a pool
are its items and not the pool itself.  The induction principle below offers a
property of the inner node together with the same property of its members.
-/

namespace DiceNotation
namespace Node

/-- A property holds of every node if it passes from the items of a pool to
the pool, and from the inner node and its members to a modifier. -/
@[elab_as_elim]
theorem induction_members
    {P : Node → Prop}
    (die : ∀ id d, P (.die id d))
    (pool : ∀ id items, (∀ item ∈ items, P item) → P (.pool id items))
    (arithmetic : ∀ id tracer op operand inner,
      P inner → P (.arithmetic id tracer op operand inner))
    (dropKeep : ∀ id tracer selection threshold inner,
      P inner → (∀ member ∈ inner.members, P member) →
        P (.dropKeep id tracer selection threshold inner))
    (explode : ∀ id tracer comparator threshold inner,
      P inner → (∀ member ∈ inner.members, P member) →
        P (.explode id tracer comparator threshold inner))
    (node : Node) :
    P node := by
  have both : P node ∧ ∀ member ∈ node.members, P member := by
    induction node using Node.rec
      (motive_2 := fun items => ∀ item ∈ items, P item) with
    | die id d => simpa [members] using die id d
    | pool id items ih => exact ⟨pool id items ih, ih⟩
    | arithmetic id tracer op operand inner ih =>
        simpa [members] using arithmetic id tracer op operand inner ih.1
    | dropKeep id tracer selection threshold inner ih =>
        simpa [members]
          using dropKeep id tracer selection threshold inner ih.1 ih.2
    | explode id tracer comparator threshold inner ih =>
        simpa [members]
          using explode id tracer comparator threshold inner ih.1 ih.2
    | nil other hother => exact absurd hother List.not_mem_nil
    | cons item items ihItem ihItems other hother =>
        rcases List.mem_cons.mp hother with rfl | hother
        · exact ihItem.1
        · exact ihItems other hother
  exact both.1

/-- A node occurs in itself and wherever it occurs in a child. -/
inductive Occurs : Node → Node → Prop where
  | here (node : Node) : Occurs node node
  | inside {part child node : Node} :
      Occurs part child → child ∈ node.children → Occurs part node

/-- What occurs in a part of a node occurs in the node. -/
theorem Occurs.trans
    {a b c : Node}
    (hab : Occurs a b)
    (hbc : Occurs b c) :
    Occurs a c := by
  induction hbc with
  | here => exact hab
  | inside _ hchild ih => exact ih.inside hchild

/-- The children of a part of a node occur in the node. -/
theorem Occurs.child
    {child part node : Node}
    (h : Occurs part node)
    (hchild : child ∈ part.children) :
    Occurs child node :=
  ((Occurs.here child).inside hchild).trans h

/-- The members of a node occur in it. -/
theorem occurs_of_mem_members
    {member node : Node}
    (h : member ∈ node.members) :
    Occurs member node := by
  cases node with
  | pool id items => exact (Occurs.here member).inside h
  | _ =>
      rw [List.mem_singleton.mp h]
      exact Occurs.here _

/-- The members of the inner node of a part occur in the node. -/
theorem Occurs.member
    {inner member part node : Node}
    (h : Occurs part node)
    (hinner : inner ∈ part.children)
    (hmember : member ∈ inner.members) :
    Occurs member node :=
  (occurs_of_mem_members hmember).trans (h.child hinner)

end Node
end DiceNotation
