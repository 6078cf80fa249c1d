import DiceNotation.Proofs.Die
import DiceNotation.Proofs.Node.Building

/-!
# Constructed nodes

A constructed node is one that the constructors returned, applied to nodes that
were constructed before and to parameters in the range of values.  Copies and
modifiers with another tracer are constructed too, and children may be shared.
Whatever the order of construction, constructed nodes are well formed: every
parameter has passed its check.
-/

namespace DiceNotation

namespace Node

/-- A node that was returned by a constructor. -/
inductive Constructed : Node → Prop where
  | sided {sides : Int} {d : Die} {node : Node} :
      Limits.Holds sides → Die.ofSides sides = .ok d →
      (Build.die d).Returns node → Constructed node
  | custom {faces : List Int} {d : Die} {node : Node} :
      (∀ face ∈ faces, Limits.Holds face) → Die.ofFaces faces = .ok d →
      (Build.die d).Returns node → Constructed node
  | fudge {node : Node} :
      (Build.die .fudge).Returns node → Constructed node
  | pool {items : List Node} {node : Node} :
      (∀ item ∈ items, Constructed item) →
      (Build.pool (items.map some)).Returns node → Constructed node
  | repeated {item : Node} {count : Int} {node : Node} :
      Constructed item →
      (Build.repeated item count).Returns node → Constructed node
  | arithmetic {inner : Node} {op : Operator} {operand : Int} {tracer : Tracer}
      {node : Node} :
      Constructed inner → Limits.Holds operand →
      (Build.arithmetic (some inner) op operand tracer).Returns node →
      Constructed node
  | dropKeep {inner : Node} {selection : Selection}
      {threshold : Int} {tracer : Tracer} {node : Node} :
      Constructed inner → Limits.Holds threshold →
      (Build.dropKeep (some inner) selection threshold tracer).Returns node →
      Constructed node
  | explode {inner : Node} {comparator : Comparator} {threshold : Option Int}
      {tracer : Tracer} {node : Node} :
      Constructed inner → (∀ t ∈ threshold, Limits.Holds t) →
      (Build.explode (some inner) comparator threshold tracer).Returns node →
      Constructed node
  | copy {original : Node} {m : Memory} :
      Constructed original → Constructed ((Build.copy original).run m).1
  | retrace {original node : Node} {tracer : Tracer} {m : Memory} :
      Constructed original →
      ((Build.retrace original tracer).run m).1 = some node →
      Constructed node

/-- A node all of whose parameters passed the checks of the constructors. -/
inductive WellFormed : Node → Prop where
  | die {id : NodeId} {d : Die} :
      d.WellFormed → WellFormed (die id d)
  | pool {id : NodeId} {items : List Node} :
      (∀ item ∈ items, WellFormed item) → WellFormed (pool id items)
  | arithmetic {id : NodeId} {tracer : Tracer} {op : Operator} {operand : Nat}
      {inner : Node} :
      WellFormed inner → (operand : Int) ≤ Limits.highest →
      ¬(op = .divide ∧ operand = 0) →
      WellFormed (arithmetic id tracer op operand inner)
  | dropKeep {id : NodeId} {tracer : Tracer} {selection : Selection}
      {threshold : Nat} {inner : Node} :
      (∀ member ∈ inner.members, WellFormed member) → inner.members ≠ [] →
      threshold ≤ inner.members.length → (threshold : Int) ≤ Limits.highest →
      WellFormed (dropKeep id tracer selection threshold inner)
  | explode {id : NodeId} {tracer : Tracer} {comparator : Comparator}
      {threshold : Option Int} {inner : Node} :
      (∀ member ∈ inner.members, WellFormed member) →
      (∀ t ∈ threshold, Limits.Holds t) →
      Explodable comparator threshold inner →
      WellFormed (explode id tracer comparator threshold inner)

/-- A node is well formed if and only if all its members are. -/
theorem wellFormed_iff_members (node : Node) :
    node.WellFormed ↔ ∀ member ∈ node.members, member.WellFormed := by
  cases node with
  | pool id items =>
      constructor
      · rintro (_ | h)
        exact h
      · exact WellFormed.pool
  | _ => simp [members]

theorem wellFormed_arithmetic_iff
    {id : NodeId} {tracer : Tracer} {op : Operator}
    {operand : Nat} {inner : Node} :
    (arithmetic id tracer op operand inner).WellFormed ↔
      inner.WellFormed ∧ (operand : Int) ≤ Limits.highest ∧
        ¬(op = .divide ∧ operand = 0) := by
  constructor
  · rintro (_ | _ | ⟨hinner, hoperand, hdivide⟩)
    exact ⟨hinner, hoperand, hdivide⟩
  · rintro ⟨hinner, hoperand, hdivide⟩
    exact .arithmetic hinner hoperand hdivide

theorem wellFormed_dropKeep_iff
    {id : NodeId} {tracer : Tracer} {selection : Selection}
    {threshold : Nat} {inner : Node} :
    (dropKeep id tracer selection threshold inner).WellFormed ↔
      inner.WellFormed ∧ inner.members ≠ [] ∧ threshold ≤ inner.members.length ∧
        (threshold : Int) ≤ Limits.highest := by
  rw [wellFormed_iff_members inner]
  constructor
  · rintro (_ | _ | _ | ⟨hmembers, hne, hlength, hhigh⟩)
    exact ⟨hmembers, hne, hlength, hhigh⟩
  · rintro ⟨hmembers, hne, hlength, hhigh⟩
    exact .dropKeep hmembers hne hlength hhigh

theorem wellFormed_explode_iff
    {id : NodeId} {tracer : Tracer} {comparator : Comparator}
    {threshold : Option Int} {inner : Node} :
    (explode id tracer comparator threshold inner).WellFormed ↔
      inner.WellFormed ∧ (∀ t ∈ threshold, Limits.Holds t) ∧
        Explodable comparator threshold inner := by
  rw [wellFormed_iff_members inner]
  constructor
  · rintro (_ | _ | _ | _ | ⟨hmembers, ht, hexplodable⟩)
    exact ⟨hmembers, ht, hexplodable⟩
  · rintro ⟨hmembers, ht, hexplodable⟩
    exact .explode hmembers ht hexplodable

/-- The identity of a node has no part in its being well formed. -/
theorem WellFormed.withId
    {node : Node}
    (h : node.WellFormed)
    (id : NodeId) :
    (node.withId id).WellFormed := by
  cases h with
  | die hd => exact .die hd
  | pool hitems => exact .pool hitems
  | arithmetic hinner hoperand hdivide =>
      exact .arithmetic hinner hoperand hdivide
  | dropKeep hmembers hne hlength hhigh =>
      exact .dropKeep hmembers hne hlength hhigh
  | explode hmembers ht hexplodable => exact .explode hmembers ht hexplodable

theorem WellFormed.retraced
    {node result : Node} {id : NodeId} {tracer : Tracer}
    (h : node.WellFormed)
    (hresult : node.retraced? id tracer = some result) :
    result.WellFormed := by
  cases h with
  | die | pool => cases hresult
  | arithmetic hinner hoperand hdivide =>
      cases hresult
      exact .arithmetic hinner hoperand hdivide
  | dropKeep hmembers hne hlength hhigh =>
      cases hresult
      exact .dropKeep hmembers hne hlength hhigh
  | explode hmembers ht hexplodable =>
      cases hresult
      exact .explode hmembers ht hexplodable

open Building Build in
/-- Every constructed node is well formed. -/
theorem Constructed.wellFormed {node : Node} (h : Constructed node) :
    node.WellFormed := by
  induction h with
  | sided hsides hd hnode =>
      obtain ⟨-, id, rfl⟩ := (accepts_die _).of_returns hnode
      exact .die (Die.wellFormed_ofSides hsides hd)
  | custom hfaces hd hnode =>
      obtain ⟨-, id, rfl⟩ := (accepts_die _).of_returns hnode
      exact .die (Die.wellFormed_ofFaces hfaces hd)
  | fudge hnode =>
      obtain ⟨-, id, rfl⟩ := (accepts_die _).of_returns hnode
      exact .die trivial
  | pool _ hnode ih =>
      obtain ⟨-, id, rfl⟩ := (accepts_pool _).of_returns hnode
      exact .pool ih
  | repeated _ hnode ih =>
      obtain ⟨-, id, ids, -, rfl⟩ := (accepts_repeated _ _).of_returns hnode
      refine .pool ?_
      intro item hitem
      obtain ⟨copy, -, rfl⟩ := List.mem_map.mp hitem
      exact ih.withId copy
  | arithmetic _ hoperand hnode ih =>
      obtain ⟨⟨hnonneg, hdivide⟩, id, rfl⟩ :=
        (accepts_arithmetic _ _ _ _).of_returns hnode
      have hhigh := hoperand.2
      exact .arithmetic ih (by omega) fun h => hdivide ⟨h.1, by omega⟩
  | dropKeep _ hthreshold hnode ih =>
      obtain ⟨⟨hne, hnonneg, hlength⟩, id, rfl⟩ :=
        (accepts_dropKeep _ _ _ _).of_returns hnode
      have hhigh := hthreshold.2
      exact .dropKeep ((wellFormed_iff_members _).mp ih) hne
        (by omega) (by omega)
  | explode _ hthreshold hnode ih =>
      obtain ⟨hexplodable, id, rfl⟩ :=
        (accepts_explode _ _ _ _).of_returns hnode
      exact .explode ((wellFormed_iff_members _).mp ih) hthreshold hexplodable
  | copy _ ih => exact ih.withId _
  | retrace _ hnode ih => exact ih.retraced hnode

theorem constructed_exploding_die :
    Constructed (explode 1 Tracer.silent .equal none (die 0 (.sided 6))) := by
  have hdie : (Build.die (.sided 6)).Returns (die 0 (.sided 6)) :=
    ⟨Memory.empty, rfl⟩
  have hexplode : (Build.explode (some (die 0 (.sided 6))) .equal
      none Tracer.silent).Returns
      (explode 1 Tracer.silent .equal none (die 0 (.sided 6))) :=
    ⟨⟨1, Traces.none, #[]⟩, rfl⟩
  have hsides : Limits.Holds 6 := by decide
  exact .explode (.sided hsides rfl hdie) (by simp) hexplode

end Node
end DiceNotation
