import DiceNotation.Proofs.Notation.Reparse

/-!
# Canonical nodes

A canonical node is written so that nothing is lost: each sum has several
summands and no sum among them, neighbouring dice differ, and no comparator
stands without its threshold.  Reading a written canonical node returns its
structure.
-/

namespace DiceNotation
namespace Node

open Building

/-- Neighbours in a sum that are not written as one group of dice. -/
def Distinct (a b : Node) : Prop :=
  a.die?.isSome = true → b.die?.isSome = true → a.render ≠ b.render

/-- A node that has the structure of what it is written as. -/
inductive Canonical : Node → Prop where
  | die (id : NodeId) (d : Die) : Canonical (die id d)
  | group {id : NodeId} {items : List Node} {d : Die} :
      2 ≤ items.length → items.length ≤ mostCopies →
      (∀ item ∈ items, item.die? = some d) → Canonical (pool id items)
  | sum {id : NodeId} {items : List Node} :
      2 ≤ items.length → (∀ item ∈ items, Canonical item) →
      (∀ item ∈ items, item.binding ≠ .sum) → items.IsChain Distinct →
      Canonical (pool id items)
  | arithmetic {id : NodeId} {tracer : Tracer} {op : Operator} {operand : Nat}
      {inner : Node} :
      Canonical inner → Canonical (arithmetic id tracer op operand inner)
  | dropKeep {id : NodeId} {tracer : Tracer} {selection : Selection}
      {threshold : Nat} {inner : Node} :
      Canonical inner → Canonical (dropKeep id tracer selection threshold inner)
  | explode {id : NodeId} {tracer : Tracer} {comparator : Comparator}
      {threshold : Option Int} {inner : Node} :
      Canonical inner → ¬(comparator = .greater ∧ threshold = none) →
      Canonical (explode id tracer comparator threshold inner)

theorem Canonical.plural {node : Node} (h : Canonical node) : node.Plural := by
  induction h with
  | die id d => exact .die id d
  | group hlength _ hdice =>
      refine .pool ?_ hlength
      intro item hitem
      obtain ⟨id, rfl⟩ := eq_die_of_mem_die? (hdice item hitem)
      exact .die id _
  | sum hlength _ _ _ ih => exact .pool ih hlength
  | arithmetic _ ih => exact .arithmetic ih
  | dropKeep _ ih => exact .dropKeep ih
  | explode _ _ ih => exact .explode ih

theorem Canonical.isOpen_eq_false {node : Node} (h : Canonical node) :
    node.isOpen = false := by
  rw [← Bool.not_eq_true]
  intro hopen
  obtain ⟨id, tracer, inner, rfl⟩ := eq_explode_of_isOpen hopen
  cases h with
  | explode _ hthreshold => exact hthreshold ⟨rfl, rfl⟩

theorem Canonical.isOpen_reread {node : Node} (h : Canonical node) :
    node.reread.isOpen = false := by
  rw [Node.isOpen_reread h.plural, h.isOpen_eq_false]

/-! ## Sums of different items -/

/-- A node that is written as a single term. -/
theorem exists_terms_eq
    {node : Node}
    (hplural : node.Plural)
    (hsum : node.binding ≠ .sum) :
    ∃ t, node.terms = [t] ∧ t.node = node.reread ∧
      t.legible = node.isLegible := by
  obtain ⟨t, ht⟩ : ∃ t, node.terms = [t] := by
    cases hplural with
    | pool hitems hlength =>
        have hgroup := (binding_pool hlength).resolve_right hsum
        obtain ⟨d, count, -, hterms, -⟩ :=
          exists_terms_eq_dice (.pool hitems hlength) hgroup
        exact ⟨_, hterms⟩
    | _ => exact ⟨_, rfl⟩
  refine ⟨t, ht, ?_, ?_⟩
  · rw [reread, ht, Term.sum]
  · rw [isLegible, ht, Term.areLegible]

theorem counted_one (node : Node) :
    Addend.counted 1 ⟨node.die?, node.terms⟩ = node.terms := by
  cases node <;> rfl

/-- Where neighbours differ, nothing is collapsed. -/
theorem collapseAfter_of_distinct
    {first : Node} {rest : List Node}
    (h : (first :: rest).IsChain Distinct) :
    Addend.collapseAfter ⟨first.die?, first.terms⟩ 1 (addends rest) =
      (first :: rest).flatMap terms := by
  induction rest generalizing first with
  | nil =>
      rw [addends, Addend.collapseAfter, counted_one, List.flatMap_singleton]
  | cons next rest ih =>
      rw [List.isChain_cons_cons] at h
      have hdifferent :
          ¬(first.die?.isSome && decide (next.die? = first.die?)) = true := by
        rw [Bool.and_eq_true, decide_eq_true_eq]
        rintro ⟨hsome, hsame⟩
        obtain ⟨d, hd⟩ := Option.isSome_iff_exists.mp hsome
        obtain ⟨id, rfl⟩ := eq_die_of_mem_die? hd
        obtain ⟨id', rfl⟩ := eq_die_of_mem_die? hsame
        exact h.1 rfl rfl rfl
      rw [addends, Addend.collapseAfter, if_neg hdifferent, counted_one, ih h.2,
        List.flatMap_cons (x := first)]

theorem areLegible_of_closed
    {ts : List Term}
    (h : ∀ t ∈ ts, t.legible = true ∧ t.node.isOpen = false) :
    Term.areLegible ts = true := by
  induction ts with
  | nil => rfl
  | cons s ts ih =>
      rw [List.forall_mem_cons] at h
      cases ts with
      | nil => exact h.1.1
      | cons t ts =>
          rw [Term.areLegible, h.1.1, h.1.2, ih h.2]
          rfl

/-- The terms of items that are written as a single term each. -/
theorem flatMap_terms
    {items : List Node}
    (hplural : ∀ item ∈ items, item.Plural)
    (hsum : ∀ item ∈ items, item.binding ≠ .sum) :
    (items.flatMap terms).map Term.node = items.map reread ∧
      (items.flatMap terms).map Term.legible = items.map isLegible := by
  induction items with
  | nil => exact ⟨rfl, rfl⟩
  | cons item items ih =>
      rw [List.forall_mem_cons] at hplural hsum
      obtain ⟨t, ht, hnode, hlegible⟩ := exists_terms_eq hplural.1 hsum.1
      obtain ⟨hnodes, hlegibles⟩ := ih hplural.2 hsum.2
      rw [List.flatMap_cons, ht, List.singleton_append,
        List.map_cons, List.map_cons,
        List.map_cons, List.map_cons, hnode, hlegible, hnodes, hlegibles]
      exact ⟨rfl, rfl⟩

/-! ## Reading canonical nodes -/

theorem reread_group
    {id : NodeId} {items : List Node} {d : Die}
    (hlength : 2 ≤ items.length)
    (hmost : items.length ≤ mostCopies)
    (hdice : ∀ item ∈ items, item.die? = some d) :
    (pool id items).isLegible = true ∧
    (pool id items).reread = (pool id items).bare := by
  have hbare : items.map bare = List.replicate items.length (die 0 d) := by
    rw [List.eq_replicate_iff, List.length_map, List.forall_mem_map]
    refine ⟨rfl, ?_⟩
    intro item hitem
    obtain ⟨id', rfl⟩ := eq_die_of_mem_die? (hdice item hitem)
    rw [bare]
  constructor
  · rw [isLegible, terms_of_same (List.ne_nil_of_length_pos (by omega)) hdice]
    exact decide_eq_true hmost
  · rw [reread_of_same hlength hdice, bare_pool, hbare]

theorem reread_sum
    {id : NodeId} {items : List Node}
    (hlength : 2 ≤ items.length)
    (hitems : ∀ item ∈ items, Canonical item)
    (hsum : ∀ item ∈ items, item.binding ≠ .sum)
    (hdistinct : items.IsChain Distinct)
    (hreread :
      ∀ item ∈ items, item.isLegible = true ∧ item.reread = item.bare) :
    (pool id items).isLegible = true ∧
    (pool id items).reread = (pool id items).bare := by
  have hterms : (pool id items).terms = items.flatMap terms := by
    cases items with
    | nil => cases hlength
    | cons first rest =>
        rw [terms, addends, Addend.collapse,
          collapseAfter_of_distinct hdistinct]
  -- Each item is a single term, so the terms are the items one by one.
  obtain ⟨hnodes, hlegibles⟩ :=
    flatMap_terms (fun item hitem => (hitems item hitem).plural) hsum
  constructor
  · rw [isLegible, hterms]
    refine areLegible_of_closed fun t ht => ⟨?_, ?_⟩
    · have hmem := List.mem_map_of_mem (f := Term.legible) ht
      rw [hlegibles] at hmem
      obtain ⟨item, hitem, h⟩ := List.mem_map.mp hmem
      rw [← h, (hreread item hitem).1]
    · have hmem := List.mem_map_of_mem (f := Term.node) ht
      rw [hnodes] at hmem
      obtain ⟨item, hitem, h⟩ := List.mem_map.mp hmem
      rw [← h, (hitems item hitem).isOpen_reread]
  · have hcount : (items.flatMap terms).length = items.length := by
      have h := congrArg List.length hnodes
      rwa [List.length_map, List.length_map] at h
    rw [reread, hterms, Term.sum_of_length_ne_one (by omega), hnodes, bare_pool]
    congr 1
    exact List.map_congr_left fun item hitem => (hreread item hitem).2

/-- A written canonical node is legible, and it is read as its structure. -/
theorem Canonical.reread_eq
    {node : Node}
    (h : Canonical node) :
    node.isLegible = true ∧ node.reread = node.bare := by
  induction h with
  | die id d => exact ⟨rfl, rfl⟩
  | group hlength hmost hdice => exact reread_group hlength hmost hdice
  | sum hlength hitems hsum hdistinct ih =>
      exact reread_sum hlength hitems hsum hdistinct ih
  | @arithmetic id tracer op operand inner hinner ih =>
      have hclosed :
          inner.reread.isOpen = true → op ≠ .add ∧ op ≠ .subtract := by
        rw [hinner.isOpen_reread]
        rintro ⟨⟩
      refine ⟨ih.1, ?_⟩
      rw [bare, ← ih.2]
      exact withSuffix_eq_arithmetic hclosed operand
  | dropKeep _ ih =>
      refine ⟨ih.1, ?_⟩
      rw [bare, ← ih.2]
      rfl
  | explode _ _ ih =>
      refine ⟨ih.1, ?_⟩
      rw [bare, ← ih.2]
      rfl

/-- Reading what a canonical node is written as returns a node of the same
structure, if its parentheses do not nest too deep to be read. -/
theorem parse_render_of_canonical
    {node : Node}
    (hconstructed : Constructed node)
    (hcanonical : Canonical node)
    (hnesting : node.render.nesting ≤ deepestNesting)
    (tracer : Tracer)
    (m : Memory) :
    ∃ again, (parse tracer node.render).outcome m = .ok again ∧
      again.bare = node.bare := by
  have hwellFormed := hconstructed.wellFormed
  obtain ⟨hlegible, hreread⟩ := hcanonical.reread_eq
  have haccepts := accepts_parse_render hcanonical.plural hwellFormed tracer
  rw [hreread] at haccepts
  exact haccepts.exists_ok ⟨hlegible, hnesting, hwellFormed.bare⟩ m

/-- The highest of two equal dice and another die, doubled. -/
theorem parse_render_selection_doubled :
    ∃ again,
      (parse Tracer.silent "(2D6+D4)KH1*2".toList).outcome Memory.empty =
        .ok again ∧
      again.bare = arithmetic 0 Tracer.silent .multiply 2
        (dropKeep 0 Tracer.silent .keepHighest 1
          (pool 0 [pool 0 [die 0 (.sided 6), die 0 (.sided 6)],
            die 0 (.sided 4)])) := by
  have hread : (parse Tracer.silent "(2D6+D4)KH1*2".toList).Returns
      (arithmetic 7 Tracer.silent .multiply 2
        (dropKeep 6 Tracer.silent .keepHighest 1
          (pool 5 [pool 3 [die 1 (.sided 6), die 2 (.sided 6)],
            die 4 (.sided 4)]))) :=
    ⟨Memory.empty, by cbv⟩
  have hgroup : Canonical (pool 3 [die 1 (.sided 6), die 2 (.sided 6)]) :=
    .group (d := .sided 6) (by decide) (by decide) (by simp [die?])
  have hsum : Canonical (pool 5 [pool 3 [die 1 (.sided 6), die 2 (.sided 6)],
      die 4 (.sided 4)]) :=
    .sum (by decide) (by simpa using ⟨hgroup, .die 4 _⟩) (by decide)
      (by simp [Distinct, die?])
  exact parse_render_of_canonical (Parse.parsed_of_parse hread).constructed
    (.arithmetic (.dropKeep hsum)) (by decide) Tracer.silent Memory.empty

end Node
end DiceNotation
