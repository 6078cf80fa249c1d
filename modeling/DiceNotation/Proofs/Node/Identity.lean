import Mathlib
import DiceNotation.Proofs.Node.Induction

/-!
# Identities

Identities are handed out in ascending order and never twice, and a node is
built after its children.  So the children of a node have smaller identities
than the node, which cannot occur within itself, and nodes with the same
identity are the same node, wherever they occur.
-/

namespace DiceNotation
namespace Node

/-- All children in the tree of the node have smaller identities than their
parents. -/
def Ordered (node : Node) : Prop :=
  ∀ part, Occurs part node → ∀ child ∈ part.children, child.id < part.id

/-- The node occurs in one of the nodes. -/
def Present (nodes : List Node) (part : Node) : Prop :=
  ∃ node ∈ nodes, Occurs part node

theorem occurs_iff {part node : Node} :
    Occurs part node ↔ part = node ∨ Present node.children part := by
  constructor
  · intro h
    cases h with
    | here => exact Or.inl rfl
    | inside hpart hchild => exact Or.inr ⟨_, hchild, hpart⟩
  · rintro (rfl | ⟨child, hchild, hpart⟩)
    · exact .here _
    · exact hpart.inside hchild

theorem Present.trans
    {nodes : List Node} {a b : Node}
    (hab : Occurs a b)
    (hb : Present nodes b) :
    Present nodes a := by
  obtain ⟨node, hnode, hoccurs⟩ := hb
  exact ⟨node, hnode, hab.trans hoccurs⟩

theorem present_of_mem
    {nodes : List Node} {node : Node}
    (h : node ∈ nodes) :
    Present nodes node :=
  ⟨node, h, .here node⟩

theorem present_singleton_iff {node part : Node} :
    Present [node] part ↔ Occurs part node := by
  constructor
  · rintro ⟨other, hother, hpart⟩
    rwa [List.mem_singleton.mp hother] at hpart
  · intro hpart
    exact ⟨node, List.mem_singleton_self node, hpart⟩

/-- The first of some nodes, on its own. -/
theorem present_head (node : Node) (rest : List Node) :
    ∀ other ∈ [node], Present (node :: rest) other := by
  intro other hother
  rw [List.mem_singleton.mp hother]
  exact present_of_mem List.mem_cons_self

/-- All but the first of some nodes. -/
theorem present_tail (node : Node) (rest : List Node) :
    ∀ other ∈ rest, Present (node :: rest) other :=
  fun _ hother => present_of_mem (List.mem_cons_of_mem node hother)

theorem present_append_iff {nodes others : List Node} {part : Node} :
    Present (nodes ++ others) part ↔
      Present nodes part ∨ Present others part := by
  simp only [Present, List.mem_append, or_and_right, exists_or]

/-- What occurs in nodes occurs wherever these nodes occur. -/
theorem Present.mono
    {nodes others : List Node} {part : Node}
    (h : Present nodes part)
    (hsub : ∀ node ∈ nodes, Present others node) :
    Present others part := by
  obtain ⟨node, hnode, hpart⟩ := h
  exact Present.trans hpart (hsub node hnode)

/-- A single node that is there. -/
theorem Present.singleton
    {nodes : List Node} {node : Node}
    (h : Present nodes node) :
    ∀ other ∈ [node], Present nodes other := by
  rw [List.forall_mem_singleton]
  exact h

/-- The children of a node, as parts of it. -/
theorem present_children (node : Node) :
    ∀ child ∈ node.children, Present [node] child :=
  fun _ hchild => present_singleton_iff.mpr
    (occurs_iff.mpr (Or.inr (present_of_mem hchild)))

/-- The members of a node, as parts of it. -/
theorem present_members (node : Node) :
    ∀ member ∈ node.members, Present [node] member :=
  fun _ hmember => present_singleton_iff.mpr (occurs_of_mem_members hmember)

/-- The children of a node that is there. -/
theorem Present.child
    {nodes : List Node} {child node : Node}
    (h : Present nodes node)
    (hchild : child ∈ node.children) :
    Present nodes child :=
  Present.trans (occurs_iff.mpr (Or.inr (present_of_mem hchild))) h

namespace Ordered

variable {node part : Node}

theorem of_occurs
    (h : node.Ordered)
    (hpart : Occurs part node) :
    part.Ordered :=
  fun inner hinner => h inner (hinner.trans hpart)

theorem of_present
    (h : node.Ordered)
    (hpart : Present node.children part) :
    part.Ordered :=
  h.of_occurs (occurs_iff.mpr (Or.inr hpart))

theorem child
    (h : node.Ordered)
    (hchild : part ∈ node.children) :
    part.Ordered :=
  h.of_present (present_of_mem hchild)

theorem id_le
    (h : node.Ordered)
    (hpart : Occurs part node) :
    part.id ≤ node.id := by
  induction hpart with
  | here => exact le_rfl
  | @inside child node hpart hchild ih =>
      have hchildOrdered : child.Ordered := h.child hchild
      exact (ih hchildOrdered).trans (h node (.here node) child hchild).le

theorem id_lt
    (h : node.Ordered)
    (hpart : Present node.children part) :
    part.id < node.id := by
  obtain ⟨child, hchild, hoccurs⟩ := hpart
  have hle := (h.child hchild).id_le hoccurs
  exact hle.trans_lt (h node (.here node) child hchild)

end Ordered

/-- The identities of the nodes and of all nodes in them are smaller than the
next one to be handed out, they are in order, and each belongs to one node
only. -/
structure Identified (nodes : List Node) (fresh : NodeId) : Prop where
  ordered : ∀ node ∈ nodes, node.Ordered
  known : ∀ node ∈ nodes, node.id < fresh
  unique : ∀ a, Present nodes a → ∀ b, Present nodes b → a.id = b.id → a = b

namespace Identified

variable {nodes others : List Node} {fresh later : NodeId}

theorem nil (fresh : NodeId) : Identified [] fresh where
  ordered node hnode := absurd hnode List.not_mem_nil
  known node hnode := absurd hnode List.not_mem_nil
  unique := by
    rintro a ⟨node, hnode, -⟩
    exact absurd hnode List.not_mem_nil

theorem ordered_of_present
    (h : Identified nodes fresh)
    {part : Node}
    (hpart : Present nodes part) :
    part.Ordered := by
  obtain ⟨node, hnode, hoccurs⟩ := hpart
  exact (h.ordered node hnode).of_occurs hoccurs

theorem id_lt_of_present
    (h : Identified nodes fresh)
    {part : Node}
    (hpart : Present nodes part) :
    part.id < fresh := by
  obtain ⟨node, hnode, hoccurs⟩ := hpart
  exact ((h.ordered node hnode).id_le hoccurs).trans_lt (h.known node hnode)

/-- Fewer nodes, or more identities that were handed out. -/
theorem mono
    (h : Identified nodes fresh)
    (hsub : ∀ node ∈ others, Present nodes node)
    (hle : fresh ≤ later) :
    Identified others later where
  ordered node hnode := h.ordered_of_present (hsub node hnode)
  known node hnode := (h.id_lt_of_present (hsub node hnode)).trans_le hle
  unique a ha b hb := h.unique a (ha.mono hsub) b (hb.mono hsub)

/-- Nodes with other nodes whose identities were handed out later. -/
theorem append
    (h : Identified nodes fresh)
    (hothers : Identified others later)
    (hlater : ∀ part, Present others part → fresh ≤ part.id)
    (hle : fresh ≤ later) :
    Identified (nodes ++ others) later := by
  constructor
  · intro node hnode
    rcases List.mem_append.mp hnode with hnode | hnode
    · exact h.ordered node hnode
    · exact hothers.ordered node hnode
  · intro node hnode
    rcases List.mem_append.mp hnode with hnode | hnode
    · exact (h.known node hnode).trans_le hle
    · exact hothers.known node hnode
  · intro a ha b hb hid
    rcases present_append_iff.mp ha with ha | ha
    · rcases present_append_iff.mp hb with hb | hb
      · exact h.unique a ha b hb hid
      · have hlt : a.id < b.id := (h.id_lt_of_present ha).trans_le (hlater b hb)
        exact absurd hid hlt.ne
    · rcases present_append_iff.mp hb with hb | hb
      · have hlt : b.id < a.id := (h.id_lt_of_present hb).trans_le (hlater a ha)
        exact absurd hid hlt.ne'
      · exact hothers.unique a ha b hb hid

/-- Nodes with a new node whose children were there before. -/
theorem grow
    (h : Identified nodes fresh)
    {node : Node}
    (hchildren : ∀ child ∈ node.children, Present nodes child)
    (hid : fresh ≤ node.id)
    (hlater : node.id < later) :
    Identified (nodes ++ [node]) later := by
  have hinside {part : Node} (hpart : Present (nodes ++ [node]) part) :
      part = node ∨ Present nodes part := by
    rcases present_append_iff.mp hpart with hpart | hpart
    · exact Or.inr hpart
    · rw [present_singleton_iff, occurs_iff] at hpart
      exact hpart.imp_right fun hchild => hchild.mono hchildren
  have hlt {part : Node} (hpart : Present nodes part) : part.id < node.id :=
    (h.id_lt_of_present hpart).trans_le hid
  constructor
  · intro other hother part hpart child hchild
    rcases hinside ⟨other, hother, hpart⟩ with rfl | hpresent
    · exact hlt (hchildren child hchild)
    · exact h.ordered_of_present hpresent part (.here part) child hchild
  · intro other hother
    rcases hinside (present_of_mem hother) with rfl | hpresent
    · exact hlater
    · exact (hlt hpresent).trans hlater
  · intro a ha b hb heq
    rcases hinside ha with ha | ha
    · rcases hinside hb with hb | hb
      · exact ha.trans hb.symm
      · rw [ha] at heq
        exact absurd heq (hlt hb).ne'
    · rcases hinside hb with hb | hb
      · rw [hb] at heq
        exact absurd heq (hlt ha).ne
      · exact h.unique a ha b hb heq

end Identified
end Node
end DiceNotation
