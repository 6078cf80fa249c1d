import DiceNotation.Proofs.Node.Constructed

/-!
# Rolls as draws

What a roll does, without a memory and without an engine: it makes draws, one
request with its answer for each die it rolls, and it has a reading.  A pool
rolls its items one after another.  An exploding node rolls each member in a
burst, which ends with the first result that does not call for another roll.

Draws decide everything: two rolls of a node that begin with the same draws are
the same.
-/

namespace DiceNotation

/-- A request for a random number, with its answer. -/
structure Draw where
  low : Int
  high : Int
  answer : Int
  deriving DecidableEq

/-- The range that was asked for. -/
def Draw.request (d : Draw) : Int × Int :=
  (d.low, d.high)

/-- The sum of the readings that a selection chooses by value. -/
def Reading.chosen (selection : Selection) (threshold : Nat)
    (parts : List Reading) : Reading :=
  total ((selection.choose threshold (parts.map value)).map ofValue)

namespace Node

section Sequences

variable (once : Node → List Draw → Reading → Prop)

/-- Nodes are rolled once each, from left to right. -/
inductive Each : List Node → List Draw → List Reading → Prop where
  | nil : Each [] [] []
  | cons {node : Node} {rest : List Node} {ds es : List Draw} {r : Reading}
      {rs : List Reading} :
      once node ds r → Each rest es rs →
        Each (node :: rest) (ds ++ es) (r :: rs)

/-- A node is rolled until a result does not call for another roll. -/
inductive Burst :
    List Draw → List Reading → Comparator → Option Int → Node → Prop where
  | stop {ds : List Draw} {r : Reading} {comparator : Comparator}
      {threshold : Option Int} {node : Node} :
      once node ds r →
      comparator.triggers (node.limit threshold) r.value = false →
      Burst ds [r] comparator threshold node
  | again {ds es : List Draw} {r : Reading} {rs : List Reading}
      {comparator : Comparator} {threshold : Option Int} {node : Node} :
      once node ds r →
      comparator.triggers (node.limit threshold) r.value = true →
      Burst es rs comparator threshold node →
      Burst (ds ++ es) (r :: rs) comparator threshold node

/-- Nodes are rolled in one burst each, from left to right. -/
inductive Bursts :
    List Node → List Draw → List (List Reading) → Comparator →
      Option Int → Prop where
  | nil {comparator : Comparator} {threshold : Option Int} :
      Bursts [] [] [] comparator threshold
  | cons {node : Node} {rest : List Node} {ds es : List Draw}
      {rs : List Reading} {blocks : List (List Reading)}
      {comparator : Comparator} {threshold : Option Int} :
      Burst once ds rs comparator threshold node →
      Bursts rest es blocks comparator threshold →
      Bursts (node :: rest) (ds ++ es) (rs :: blocks) comparator threshold

end Sequences

/-- A roll of the node can make these draws, and then has this reading. -/
inductive Rolls : Node → List Draw → Reading → Prop where
  | die {id : NodeId} {d : Die} {n : Int} :
      d.range.1 ≤ n → n ≤ d.range.2 →
      Rolls (die id d) [⟨d.range.1, d.range.2, n⟩] (Reading.ofValue (d.face n))
  | pool {id : NodeId} {items : List Node} {ds : List Draw}
      {rs : List Reading} :
      Each Rolls items ds rs → Rolls (pool id items) ds (Reading.total rs)
  | arithmetic {id : NodeId} {tracer : Tracer} {op : Operator} {operand : Nat}
      {inner : Node} {ds : List Draw} {r : Reading} :
      Rolls inner ds r →
      Rolls (arithmetic id tracer op operand inner) ds (r.operate op operand)
  | dropKeep {id : NodeId} {tracer : Tracer} {selection : Selection}
      {threshold : Nat} {inner : Node} {ds : List Draw} {rs : List Reading} :
      Each Rolls inner.members ds rs →
      Rolls (dropKeep id tracer selection threshold inner) ds
        (Reading.chosen selection threshold rs)
  | explode {id : NodeId} {tracer : Tracer} {comparator : Comparator}
      {threshold : Option Int} {inner : Node} {ds : List Draw}
      {blocks : List (List Reading)} :
      Bursts Rolls inner.members ds blocks comparator threshold →
      Rolls (explode id tracer comparator threshold inner) ds
        (Reading.total blocks.flatten)

/-- Of two lists of draws that begin alike, at most one can be made. -/
def Determined {α : Type} (R : List Draw → α → Prop) : Prop :=
  ∀ {ds es us vs : List Draw} {a b : α},
    R ds a → R es b → ds ++ us = es ++ vs → ds = es ∧ a = b

section Determined

variable {once : Node → List Draw → Reading → Prop}

theorem determined_each
    {nodes : List Node}
    (h : ∀ node ∈ nodes, Determined (once node)) :
    Determined (Each once nodes) := by
  intro ds es us vs rs ss hds hes heq
  induction hds generalizing es us vs ss with
  | nil =>
      cases hes
      exact ⟨rfl, rfl⟩
  | cons hfirst _ ih =>
      cases hes with
      | cons hfirst' hrest' =>
          rw [List.append_assoc, List.append_assoc] at heq
          obtain ⟨rfl, rfl⟩ := h _ List.mem_cons_self hfirst hfirst' heq
          have htail := List.append_cancel_left heq
          obtain ⟨rfl, rfl⟩ :=
            ih (fun node hnode => h node (List.mem_cons_of_mem _ hnode))
              hrest' htail
          exact ⟨rfl, rfl⟩

theorem determined_burst
    {node : Node}
    (h : Determined (once node))
    (comparator : Comparator)
    (threshold : Option Int) :
    Determined fun ds rs => Burst once ds rs comparator threshold node := by
  intro ds es us vs rs ss hds hes heq
  induction hds generalizing es us vs ss with
  | stop hroll hstop =>
      cases hes with
      | stop hroll' =>
          obtain ⟨rfl, rfl⟩ := h hroll hroll' heq
          exact ⟨rfl, rfl⟩
      | again hroll' hagain =>
          rw [List.append_assoc] at heq
          obtain ⟨rfl, rfl⟩ := h hroll hroll' heq
          rw [hstop] at hagain
          cases hagain
  | again hroll hagain _ ih =>
      cases hes with
      | stop hroll' hstop =>
          rw [List.append_assoc] at heq
          obtain ⟨rfl, rfl⟩ := h hroll hroll' heq
          rw [hagain] at hstop
          cases hstop
      | again hroll' _ hrest' =>
          rw [List.append_assoc, List.append_assoc] at heq
          obtain ⟨rfl, rfl⟩ := h hroll hroll' heq
          obtain ⟨rfl, rfl⟩ := ih h hrest' (List.append_cancel_left heq)
          exact ⟨rfl, rfl⟩

theorem determined_bursts
    {nodes : List Node}
    (h : ∀ node ∈ nodes, Determined (once node))
    (comparator : Comparator)
    (threshold : Option Int) :
    Determined fun ds blocks =>
      Bursts once nodes ds blocks comparator threshold := by
  intro ds es us vs rs ss hds hes heq
  induction hds generalizing es us vs ss with
  | nil =>
      cases hes
      exact ⟨rfl, rfl⟩
  | cons hfirst _ ih =>
      cases hes with
      | cons hfirst' hrest' =>
          rw [List.append_assoc, List.append_assoc] at heq
          obtain ⟨rfl, rfl⟩ :=
            determined_burst (h _ List.mem_cons_self) _ _ hfirst hfirst' heq
          have htail := List.append_cancel_left heq
          obtain ⟨rfl, rfl⟩ :=
            ih (fun node hnode => h node (List.mem_cons_of_mem _ hnode))
              hrest' htail
          exact ⟨rfl, rfl⟩

end Determined

/-- The draws of a roll decide where it ends and what it reads. -/
theorem determined_rolls (node : Node) : Determined (Rolls node) := by
  induction node using induction_members with
  | die id d =>
      intro ds es us vs r s hds hes heq
      cases hds
      cases hes
      cases heq
      exact ⟨rfl, rfl⟩
  | pool id items ih =>
      intro ds es us vs r s hds hes heq
      cases hds with
      | pool hds =>
          cases hes with
          | pool hes =>
              obtain ⟨rfl, rfl⟩ := determined_each ih hds hes heq
              exact ⟨rfl, rfl⟩
  | arithmetic id tracer op operand inner ih =>
      intro ds es us vs r s hds hes heq
      cases hds with
      | arithmetic hds =>
          cases hes with
          | arithmetic hes =>
              obtain ⟨rfl, rfl⟩ := ih hds hes heq
              exact ⟨rfl, rfl⟩
  | dropKeep id tracer selection threshold inner _ ih =>
      intro ds es us vs r s hds hes heq
      cases hds with
      | dropKeep hds =>
          cases hes with
          | dropKeep hes =>
              obtain ⟨rfl, rfl⟩ := determined_each ih hds hes heq
              exact ⟨rfl, rfl⟩
  | explode id tracer comparator threshold inner _ ih =>
      intro ds es us vs r s hds hes heq
      cases hds with
      | explode hds =>
          cases hes with
          | explode hes =>
              obtain ⟨rfl, rfl⟩ :=
                determined_bursts ih comparator threshold hds hes heq
              exact ⟨rfl, rfl⟩

end Node
end DiceNotation
