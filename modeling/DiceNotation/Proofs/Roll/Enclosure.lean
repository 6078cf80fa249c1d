import DiceNotation.Proofs.Operator
import DiceNotation.Proofs.Selection
import DiceNotation.Proofs.Roll.Table

/-!
# Bounds enclose rolls

The least value of a well-formed node is at most its greatest value, and every
roll lies between the two as long as no explosion rolls again on a negative
result: another roll then never lowers the sum below that of the least values.
-/

namespace DiceNotation
namespace Node

/-- No negative result of a member calls for another roll. -/
def CalmExplosion (comparator : Comparator) (threshold : Option Int)
    (inner : Node) : Prop :=
  ∀ member ∈ inner.members,
    0 ≤ member.extreme .least ∨
      comparator = .equal ∧ 0 ≤ member.limit threshold ∨
      comparator = .greater ∧ -1 ≤ member.limit threshold

/-- No explosion in the tree rolls again on a negative result. -/
def Calm (node : Node) : Prop :=
  ∀ {id : NodeId} {tracer : Tracer} {comparator : Comparator}
    {threshold : Option Int} {inner : Node},
    Occurs (explode id tracer comparator threshold inner) node →
      CalmExplosion comparator threshold inner

theorem Calm.of_occurs
    {part node : Node}
    (h : Calm node)
    (hpart : Occurs part node) :
    Calm part :=
  fun hoccurs => h (hoccurs.trans hpart)

theorem Calm.member
    {inner node member : Node}
    (h : Calm node)
    (hinner : inner ∈ node.children)
    (hmember : member ∈ inner.members) :
    Calm member :=
  h.of_occurs ((Occurs.here node).member hinner hmember)

/-! ## The order of the bounds -/

theorem mem_listedFaces_of_ne_nil
    {node : Node}
    (h : node.listedFaces ≠ [])
    (e : Extreme) :
    node.extreme e ∈ node.listedFaces := by
  cases node with
  | die id d => exact Die.bound_mem_listedFaces h e
  | _ => exact absurd rfl h

theorem sum_extreme_le
    {nodes : List Node}
    (h : ∀ node ∈ nodes, node.extreme .least ≤ node.extreme .greatest) :
    List.Forall₂ (· ≤ ·) (nodes.map fun node => node.extreme .least)
      (nodes.map fun node => node.extreme .greatest) := by
  rw [List.forall₂_map_left_iff, List.forall₂_map_right_iff, List.forall₂_same]
  exact h

/-- The least value of a well-formed node is at most its greatest value. -/
theorem extreme_le {node : Node} (h : node.WellFormed) :
    node.extreme .least ≤ node.extreme .greatest := by
  induction h with
  | die hd =>
      obtain ⟨n, hlow, hhigh, hn⟩ := Die.exists_face_bound hd .least
      rw [extreme_die, extreme_die, ← hn]
      exact (Die.face_spec hd hlow hhigh).2.1
  | pool _ ih =>
      rw [extreme_pool, extreme_pool]
      exact clamp_mono (sum_extreme_le ih).sum_le_sum
  | @arithmetic id tracer op operand inner _ _ _ ih =>
      rw [extreme_arithmetic, extreme_arithmetic]
      have hleast : op.apply operand (op.leastAt operand inner.listedFaces
          (inner.extreme .least) (inner.extreme .greatest)) ≤
            op.apply operand (inner.extreme .least) :=
        Operator.apply_leastAt_le_apply le_rfl ih fun hfaces =>
          mem_listedFaces_of_ne_nil hfaces .least
      exact hleast.trans (Operator.apply_le_apply_greatestAt le_rfl ih)
  | @dropKeep id tracer selection threshold inner _ _ _ _ ih =>
      rw [extreme_dropKeep, extreme_dropKeep]
      exact clamp_mono (selection.sum_choose_le threshold (sum_extreme_le ih))
  | explode =>
      rw [extreme_explode_least, extreme_explode_greatest]
      exact (clamp_holds _).2

/-! ## Sequences of rolls -/

section Sequences

variable {once : Node → List Draw → Reading → Prop}

theorem Each.forall₂
    {P : Node → Reading → Prop} {nodes : List Node}
    {ds : List Draw} {rs : List Reading}
    (h : Each once nodes ds rs)
    (hP : ∀ node ∈ nodes, ∀ ds r, once node ds r → P node r) :
    List.Forall₂ P nodes rs := by
  induction h with
  | nil => exact .nil
  | cons hroll _ ih =>
      exact .cons (hP _ List.mem_cons_self _ _ hroll)
        (ih fun node hnode => hP node (List.mem_cons_of_mem _ hnode))

/-- Where the rolls of every node lie between its bounds, so do the rolls of
all nodes, one by one. -/
theorem Each.enclosed
    {nodes : List Node} {ds : List Draw} {rs : List Reading}
    (h : Each once nodes ds rs)
    (hP : ∀ node ∈ nodes, ∀ ds r, once node ds r →
      node.extreme .least ≤ r.value ∧ r.value ≤ node.extreme .greatest) :
    List.Forall₂ (· ≤ ·) (nodes.map fun node => node.extreme .least)
        (rs.map Reading.value) ∧
      List.Forall₂ (· ≤ ·) (rs.map Reading.value)
        (nodes.map fun node => node.extreme .greatest) := by
  have hboth := h.forall₂ hP
  rw [List.forall₂_map_left_iff, List.forall₂_map_right_iff,
    List.forall₂_map_left_iff, List.forall₂_map_right_iff]
  exact ⟨hboth.imp fun _ _ hvalue => hvalue.1,
    (hboth.imp fun _ _ hvalue => hvalue.2).flip⟩

theorem Bursts.forall₂
    {P : Node → List Reading → Prop} {nodes : List Node} {ds : List Draw}
    {blocks : List (List Reading)} {comparator : Comparator}
    {threshold : Option Int}
    (h : Bursts once nodes ds blocks comparator threshold)
    (hP : ∀ node ∈ nodes, ∀ ds block,
      Burst once ds block comparator threshold node → P node block) :
    List.Forall₂ P nodes blocks := by
  induction h with
  | nil => exact .nil
  | cons hburst _ ih =>
      exact .cons (hP _ List.mem_cons_self _ _ hburst)
        (ih fun node hnode => hP node (List.mem_cons_of_mem _ hnode))

/-- A result that calls for another roll is not negative in a calm
explosion. -/
theorem nonneg_of_triggers
    {node : Node} {comparator : Comparator}
    {threshold : Option Int} {value : Int}
    (hcalm : 0 ≤ node.extreme .least ∨
      comparator = .equal ∧ 0 ≤ node.limit threshold ∨
      comparator = .greater ∧ -1 ≤ node.limit threshold)
    (hvalue : node.extreme .least ≤ value)
    (h : comparator.triggers (node.limit threshold) value = true) :
    0 ≤ value := by
  rcases hcalm with hleast | ⟨rfl, hlimit⟩ | ⟨rfl, hlimit⟩
  · exact hleast.trans hvalue
  · simp only [Comparator.triggers, decide_eq_true_eq] at h
    omega
  · simp only [Comparator.triggers, decide_eq_true_eq] at h
    omega

/-- A burst in a calm explosion sums to no less than the least value of its
node. -/
theorem Burst.least_le_sum
    {node : Node} {comparator : Comparator}
    {threshold : Option Int} {ds : List Draw} {rs : List Reading}
    (h : Burst once ds rs comparator threshold node)
    (hcalm : 0 ≤ node.extreme .least ∨
      comparator = .equal ∧ 0 ≤ node.limit threshold ∨
      comparator = .greater ∧ -1 ≤ node.limit threshold)
    (honce : ∀ ds r, once node ds r → node.extreme .least ≤ r.value) :
    node.extreme .least ≤ (rs.map Reading.value).sum := by
  induction h with
  | stop hroll _ =>
      rw [List.map_singleton, List.sum_singleton]
      exact honce _ _ hroll
  | again hroll htriggers _ ih =>
      have hrest := ih hcalm honce
      have hfirst := nonneg_of_triggers hcalm (honce _ _ hroll) htriggers
      rw [List.map_cons, List.sum_cons]
      omega

end Sequences

theorem sum_flatten_value (blocks : List (List Reading)) :
    (blocks.flatten.map Reading.value).sum =
      (blocks.map fun block => (block.map Reading.value).sum).sum := by
  rw [List.map_flatten, List.sum_flatten, List.map_map]
  rfl

/-- A roll of a die that lists its faces shows one of them. -/
theorem Rolls.value_mem_listedFaces
    {node : Node} {ds : List Draw} {r : Reading}
    (hrolls : Rolls node ds r)
    (hnode : node.WellFormed)
    (hfaces : node.listedFaces ≠ []) :
    r.value ∈ node.listedFaces := by
  cases hrolls with
  | die hlow hhigh =>
      cases hnode with
      | die hd => exact (Die.face_spec hd hlow hhigh).2.2 hfaces
  | _ => exact absurd rfl hfaces

/-- The bounds of a well-formed node without explosions on negative results
enclose all its rolls. -/
theorem Rolls.value_mem
    {node : Node} {ds : List Draw} {r : Reading}
    (hrolls : Rolls node ds r)
    (hnode : node.WellFormed)
    (hcalm : Calm node) :
    node.extreme .least ≤ r.value ∧ r.value ≤ node.extreme .greatest := by
  induction hnode generalizing ds r with
  | die hd =>
      cases hrolls with
      | die hlow hhigh =>
          have hface := Die.face_spec hd hlow hhigh
          exact ⟨hface.1, hface.2.1⟩
  | @pool id items _ ih =>
      cases hrolls with
      | pool hrolls =>
          obtain ⟨hlow, hhigh⟩ := hrolls.enclosed fun item hitem ds r hroll =>
            ih item hitem hroll
              (hcalm.of_occurs ((Occurs.here item).inside hitem))
          rw [extreme_pool, extreme_pool, Reading.value_total]
          exact ⟨clamp_mono hlow.sum_le_sum, clamp_mono hhigh.sum_le_sum⟩
  | @arithmetic id tracer op operand inner hinner _ _ ih =>
      cases hrolls with
      | arithmetic hroll =>
          obtain ⟨hlow, hhigh⟩ :=
            ih hroll
              (hcalm.of_occurs ((Occurs.here inner).inside List.mem_cons_self))
          rw [extreme_arithmetic, extreme_arithmetic]
          constructor
          · exact Operator.apply_leastAt_le_apply hlow hhigh
              (hroll.value_mem_listedFaces hinner)
          · exact Operator.apply_le_apply_greatestAt hlow hhigh
  | @dropKeep id tracer selection threshold inner _ _ _ _ ih =>
      cases hrolls with
      | dropKeep hrolls =>
          obtain ⟨hlow, hhigh⟩ :=
            hrolls.enclosed fun member hmember ds r hroll =>
              ih member hmember hroll (hcalm.member List.mem_cons_self hmember)
          rw [extreme_dropKeep, extreme_dropKeep, Reading.chosen,
            Reading.value_total_ofValue]
          exact ⟨clamp_mono (selection.sum_choose_le threshold hlow),
            clamp_mono (selection.sum_choose_le threshold hhigh)⟩
  | @explode id tracer comparator threshold inner _ _ _ ih =>
      cases hrolls with
      | @explode _ _ _ _ _ _ blocks hrolls =>
          rw [extreme_explode_least, extreme_explode_greatest,
            Reading.value_total, sum_flatten_value]
          refine ⟨clamp_mono (List.Forall₂.sum_le_sum ?_), (clamp_holds _).2⟩
          rw [List.forall₂_map_left_iff, List.forall₂_map_right_iff]
          apply hrolls.forall₂
          intro member hmember ds block hburst
          refine hburst.least_le_sum (hcalm (.here _) member hmember) ?_
          intro ds r hroll
          exact (ih member hmember hroll
            (hcalm.member List.mem_cons_self hmember)).1

/-- The least value of a constructed node is at most its greatest value, and
both enclose every roll that returns, with any engine that answers in range, as
long as no explosion in the node rolls again on a negative result. -/
theorem bounds_enclose_rolls
    (node : Node)
    (hnode : Constructed node) :
    (∀ m m', (node.minimum.run m).1 ≤ (node.maximum.run m').1) ∧
      (Calm node → ∀ {σ : Type} (engine : Engine σ), engine.InRange →
        ∀ (t u : Table σ) (o : Outcome) (m m' : Memory),
          Rolling.run (roll engine node) t = (.ok o, u) →
            (node.minimum.run m).1 ≤ o.value ∧
            o.value ≤ (node.maximum.run m').1) := by
  have hwellFormed := hnode.wellFormed
  constructor
  · intro m m'
    rw [minimum, maximum, gives_bound node .least m,
      gives_bound node .greatest m']
    exact extreme_le hwellFormed
  · intro hcalm σ engine hengine t u o m m' hrun
    obtain ⟨ds, hrolls, -⟩ := (realizes_roll hengine hwellFormed).sound hrun
    rw [minimum, maximum, gives_bound node .least m,
      gives_bound node .greatest m']
    exact hrolls.value_mem hwellFormed hcalm

theorem calm_exploding_die :
    Calm (explode 1 Tracer.silent .equal none (die 0 (.sided 6))) := by
  intro id tracer comparator threshold inner h
  cases h with
  | here =>
      intro member hmember
      rw [List.mem_singleton.mp hmember]
      exact Or.inl (by decide)
  | inside h hchild =>
      rw [List.mem_singleton.mp hchild] at h
      cases h with
      | inside _ hchild => cases hchild

/-- A die that explodes on its highest side, rolled as six and then three. -/
theorem exploding_die_roll_enclosed :
    ∃ o u, Rolling.run (roll Engine.script
        (explode 1 Tracer.silent .equal none (die 0 (.sided 6))))
          ⟨Memory.empty, [6, 3], #[]⟩ = (.ok o, u) ∧
      o.value = 9 ∧ 1 ≤ o.value ∧ o.value ≤ Limits.highest := by
  have hroll : Rolling.run (roll Engine.script
        (explode 1 Tracer.silent .equal none (die 0 (.sided 6))))
          ⟨Memory.empty, [6, 3], #[]⟩ = _ := rfl
  refine ⟨_, _, hroll, rfl, ?_⟩
  exact (bounds_enclose_rolls _ constructed_exploding_die).2 calm_exploding_die
    Engine.script Engine.inRange_script _ _ _ Memory.empty Memory.empty hroll

end Node
end DiceNotation
