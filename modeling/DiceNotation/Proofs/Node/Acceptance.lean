import DiceNotation.Proofs.Node.Refusal
import DiceNotation.Proofs.Roll.Enclosure
import DiceNotation.Proofs.Saturation

/-!
# Which explosions are accepted

An explosion is accepted or refused as endless, whatever the memory holds.  If
all members have exact bounds, its threshold decides: what would call for
another roll at every value must not happen, neither for the pool of the members
nor for a single member.
-/

namespace DiceNotation

namespace Build

open Building

/-- The explosion of the node is built. -/
def AcceptsExplosion (tracer : Tracer) (inner : Node) (comparator : Comparator)
    (threshold : Option Int) : Prop :=
  ∀ m, ∃ id, (explode (some inner) comparator threshold tracer).outcome m =
    .ok (.explode id tracer comparator threshold inner)

/-- The explosion of the node is refused because it may never stop. -/
def RefusesExplosion (tracer : Tracer) (inner : Node) (comparator : Comparator)
    (threshold : Option Int) : Prop :=
  ∀ m, ∃ e,
    (explode (some inner) comparator threshold tracer).outcome m = .error e ∧
    e.kind = .endless

section Decision

variable {tracer : Tracer} {inner : Node} {comparator : Comparator}
  {threshold : Option Int}

theorem acceptsExplosion_of_explodable
    (h : Node.Explodable comparator threshold inner) :
    AcceptsExplosion tracer inner comparator threshold := by
  intro m
  obtain ⟨node, hnode, id, rfl⟩ :=
    (accepts_explode inner comparator threshold tracer).exists_ok h m
  exact ⟨id, hnode⟩

theorem refusesExplosion_of_not_explodable
    (hmembers : inner.members ≠ [])
    (h : ¬Node.Explodable comparator threshold inner) :
    RefusesExplosion tracer inner comparator threshold := by
  intro m
  have haccepted := accepts_explode inner comparator threshold tracer m
  have hcause := refusedFor_explode inner comparator threshold tracer m
  cases hout : (explode (some inner) comparator threshold tracer).outcome m with
  | ok node =>
      rw [hout] at haccepted
      exact absurd haccepted.1 h
  | error e =>
      rw [hout] at hcause
      rcases hcause trivial with ⟨hempty, -⟩ | hendless
      · exact absurd hempty hmembers
      · exact ⟨e, rfl, hendless⟩

theorem acceptsExplosion_iff :
    AcceptsExplosion tracer inner comparator threshold ↔
      Node.Explodable comparator threshold inner := by
  refine ⟨?_, acceptsExplosion_of_explodable⟩
  intro h
  obtain ⟨id, hid⟩ := h Memory.empty
  exact ((accepts_explode inner comparator threshold tracer).of_returns
    ⟨_, hid⟩).1

theorem acceptsExplosion_or_refuses
    (hmembers : inner.members ≠ [])
    (comparator : Comparator) (threshold : Option Int) :
    AcceptsExplosion tracer inner comparator threshold ∨
      RefusesExplosion tracer inner comparator threshold := by
  by_cases h : Node.Explodable comparator threshold inner
  · exact Or.inl (acceptsExplosion_of_explodable h)
  · exact Or.inr (refusesExplosion_of_not_explodable hmembers h)

end Decision

/-- A node as a pool has the members of the node as its items. -/
theorem accepts_wrapInPool (inner : Node) :
    Accepts (wrapInPool (some inner)) True
      fun pool => ∃ id, pool = .pool id inner.members := by
  cases inner with
  | pool id items => exact accepts_pure trivial ⟨id, rfl⟩
  | _ =>
      exact accepts_newNode.andThen fun id _ => accepts_pure trivial ⟨id, rfl⟩

end Build

namespace Node

variable {comparator : Comparator} {threshold : Option Int} {inner : Node}

/-- The bounds of a well-formed node are those of the pool of its members. -/
theorem extreme_eq_pool_members
    (h : inner.WellFormed)
    (id : NodeId) (e : Extreme) :
    inner.extreme e = (pool id inner.members).extreme e := by
  cases inner with
  | pool => rw [extreme_pool, extreme_pool, members]
  | _ =>
      simp only [extreme_pool, members, List.map_singleton, List.sum_singleton]
      exact (clamp_of_holds (holds_extreme h e)).symm

/-- The condition of explosions, in terms of the pool of the members. -/
theorem explodable_iff_pool
    (h : inner.WellFormed)
    (hmembers : inner.members ≠ [])
    (id : NodeId) :
    Explodable comparator threshold inner ↔
      (∀ item ∈ inner.members, item.isExact = true) ∧
        ∀ node ∈ pool id inner.members :: inner.members,
          ¬Endless comparator threshold node := by
  have hpool : Endless comparator threshold inner ↔
      Endless comparator threshold (pool id inner.members) := by
    simp only [Endless, limit, extreme_eq_pool_members h id]
  rw [List.forall_mem_cons, ← hpool]
  constructor
  · intro hexplodable
    exact ⟨hexplodable.exact_members, hexplodable.not_endless,
      hexplodable.not_endless_members⟩
  · rintro ⟨hexact, hinner, hitems⟩
    exact ⟨hmembers, hexact, hinner, hitems⟩

/-- The bounds of a pool of members and of each member are in order. -/
theorem extreme_le_of_mem_pool
    (h : inner.WellFormed)
    (id : NodeId) :
    ∀ node ∈ pool id inner.members :: inner.members,
      node.extreme .least ≤ node.extreme .greatest := by
  have hmembers := (wellFormed_iff_members inner).mp h
  rw [List.forall_mem_cons]
  exact ⟨extreme_le (.pool hmembers),
    fun item hitem => extreme_le (hmembers item hitem)⟩

section Thresholds

variable {node : Node} {t : Int}

theorem not_endless_greater_iff :
    ¬Endless .greater (some t) node ↔ node.extreme .least < t := by
  rw [Endless, limit, Option.getD_some, Comparator.isEndless,
    decide_eq_true_iff, not_le]

theorem not_endless_less_iff :
    ¬Endless .less (some t) node ↔ t < node.extreme .greatest := by
  rw [Endless, limit, Option.getD_some, Comparator.isEndless,
    decide_eq_true_iff, not_le]

theorem not_endless_equal_iff :
    ¬Endless .equal (some t) node ↔
      ¬(node.extreme .least = t ∧ node.extreme .greatest = t) := by
  rw [Endless, limit, Option.getD_some, Comparator.isEndless, Bool.and_eq_true,
    decide_eq_true_iff, decide_eq_true_iff]
  omega

theorem endless_less_none : Endless .less none node := by
  rw [Endless, limit, Option.getD_none, Comparator.isEndless,
    decide_eq_true_iff]

theorem not_endless_greater_none_iff
    (h : node.extreme .least ≤ node.extreme .greatest) :
    ¬Endless .greater none node ↔
      node.extreme .least ≠ node.extreme .greatest := by
  rw [Endless, limit, Option.getD_none, Comparator.isEndless,
    decide_eq_true_iff]
  omega

theorem not_endless_equal_none_iff :
    ¬Endless .equal none node ↔
      node.extreme .least ≠ node.extreme .greatest := by
  rw [Endless, limit, Option.getD_none, Comparator.isEndless, Bool.and_eq_true,
    decide_eq_true_iff, decide_eq_true_iff, and_iff_right rfl]

end Thresholds

/-- Which explosions are accepted.  Building an explosion of a node whose pool
has items succeeds or is refused as endless.  It is refused whatever the
comparator and the threshold are if an item has no exact bounds, and else the
bounds of the pool and of every item decide.  Hence a higher threshold for
greater results, and a lower one for lesser results, is never refused where the
other one is accepted. -/
theorem explosions_accepted_by_threshold
    {inner P : Node}
    (hinner : Constructed inner)
    (hpool : (Build.wrapInPool (some inner)).Returns P)
    (hitems : P.members ≠ [])
    (tracer : Tracer) :
    let accepted := Build.AcceptsExplosion tracer inner
    let refused := Build.RefusesExplosion tracer inner
    (∀ comparator threshold, accepted comparator threshold ∨
      refused comparator threshold) ∧
      ((∃ item ∈ P.members, item.isExact = false) →
        ∀ comparator threshold, refused comparator threshold) ∧
      ((∀ item ∈ P.members, item.isExact = true) →
        (∀ t, accepted .greater (some t) ↔
          ∀ node ∈ P :: P.members, node.extreme .least < t) ∧
        (∀ t, accepted .less (some t) ↔
          ∀ node ∈ P :: P.members, t < node.extreme .greatest) ∧
        (∀ t, accepted .equal (some t) ↔
          ∀ node ∈ P :: P.members,
            ¬(node.extreme .least = t ∧ node.extreme .greatest = t)) ∧
        refused .less none ∧
        (accepted .greater none ↔
          ∀ node ∈ P :: P.members,
            node.extreme .least ≠ node.extreme .greatest) ∧
        (accepted .equal none ↔
          ∀ node ∈ P :: P.members,
            node.extreme .least ≠ node.extreme .greatest)) ∧
      ∀ t t', t ≤ t' →
        (accepted .greater (some t) → accepted .greater (some t')) ∧
        (accepted .less (some t') → accepted .less (some t)) := by
  intro accepted refused
  obtain ⟨-, id, rfl⟩ := (Build.accepts_wrapInPool inner).of_returns hpool
  have hmembers : inner.members ≠ [] := hitems
  have hwellFormed := hinner.wellFormed
  have haccepted (comparator : Comparator) (threshold : Option Int) :
      accepted comparator threshold ↔
        (∀ item ∈ inner.members, item.isExact = true) ∧
          ∀ node ∈ pool id inner.members :: inner.members,
            ¬Endless comparator threshold node :=
    Build.acceptsExplosion_iff.trans
      (explodable_iff_pool hwellFormed hmembers id)
  have hdecided : ∀ comparator threshold,
      accepted comparator threshold ∨ refused comparator threshold :=
    Build.acceptsExplosion_or_refuses hmembers
  have hordered := extreme_le_of_mem_pool hwellFormed id
  refine ⟨hdecided, ?_, ?_, ?_⟩
  · rintro ⟨item, hitem, hinexact⟩ comparator threshold
    apply (hdecided comparator threshold).resolve_left
    intro h
    have hexact := ((haccepted comparator threshold).mp h).1 item hitem
    rw [hinexact] at hexact
    cases hexact
  · intro hexact
    have hends (comparator : Comparator) (threshold : Option Int) :
        accepted comparator threshold ↔
          ∀ node ∈ pool id inner.members :: inner.members,
            ¬Endless comparator threshold node :=
      (haccepted comparator threshold).trans (and_iff_right hexact)
    refine ⟨?_, ?_, ?_, ?_, ?_, ?_⟩
    · intro t
      exact (hends .greater (some t)).trans
        (forall₂_congr fun _ _ => not_endless_greater_iff)
    · intro t
      exact (hends .less (some t)).trans
        (forall₂_congr fun _ _ => not_endless_less_iff)
    · intro t
      exact (hends .equal (some t)).trans
        (forall₂_congr fun _ _ => not_endless_equal_iff)
    · apply (hdecided .less none).resolve_left
      intro h
      exact (hends .less none).mp h _ List.mem_cons_self endless_less_none
    · exact (hends .greater none).trans
        (forall₂_congr fun node hnode =>
          not_endless_greater_none_iff (hordered node hnode))
    · exact (hends .equal none).trans
        (forall₂_congr fun _ _ => not_endless_equal_none_iff)
  · intro t t' hle
    simp only [haccepted, not_endless_greater_iff, not_endless_less_iff]
    constructor
    · rintro ⟨hexact, hless⟩
      exact ⟨hexact, fun node hnode => (hless node hnode).trans_le hle⟩
    · rintro ⟨hexact, hless⟩
      exact ⟨hexact, fun node hnode => hle.trans_lt (hless node hnode)⟩

/-- Two dice show at least three together, so three is too low a threshold for
them, although it is not for any one of them. -/
theorem two_dice_explode_above_three :
    ∃ inner, Constructed inner ∧ inner.members ≠ [] ∧
      Build.AcceptsExplosion Tracer.silent inner .greater (some 4) ∧
      Build.RefusesExplosion Tracer.silent inner .greater (some 3) := by
  have hsided : (Build.die (.sided 6)).Returns (die 0 (.sided 6)) :=
    ⟨Memory.empty, rfl⟩
  have hcustom :
      (Build.die (.custom [2, 5])).Returns (die 1 (.custom [2, 5])) :=
    ⟨⟨1, Traces.none, #[]⟩, rfl⟩
  have hpool :
      (Build.pool ([die 0 (.sided 6), die 1 (.custom [2, 5])].map some)).Returns
        (pool 2 [die 0 (.sided 6), die 1 (.custom [2, 5])]) :=
    ⟨⟨2, Traces.none, #[]⟩, rfl⟩
  have hwrapped : (Build.wrapInPool (some (pool 2 [die 0 (.sided 6),
      die 1 (.custom [2, 5])]))).Returns
      (pool 2 [die 0 (.sided 6), die 1 (.custom [2, 5])]) :=
    ⟨⟨3, Traces.none, #[]⟩, rfl⟩
  have hsides : Limits.Holds 6 := by decide
  have hfaces : ∀ face ∈ [2, 5], Limits.Holds face := by decide
  have hnode :
      Constructed (pool 2 [die 0 (.sided 6), die 1 (.custom [2, 5])]) := by
    refine .pool ?_ hpool
    rw [List.forall_mem_cons, List.forall_mem_singleton]
    exact ⟨.sided hsides rfl hsided, .custom hfaces rfl hcustom⟩
  obtain ⟨hdecided, -, hexact, -⟩ :=
    explosions_accepted_by_threshold hnode hwrapped
      (by simp [members]) Tracer.silent
  have hgreater := (hexact (by simp [members])).1
  have hleast : ((pool 2 [die 0 (.sided 6),
      die 1 (.custom [2, 5])]).extreme .least) = 3 := by
    decide
  refine ⟨_, hnode, by simp [members], (hgreater 4).mpr ?_, ?_⟩
  · decide
  · refine (hdecided .greater (some 3)).resolve_left ?_
    intro h
    have hless := (hgreater 3).mp h _ List.mem_cons_self
    rw [hleast] at hless
    omega

end Node
end DiceNotation
