import DiceNotation.Proofs.Notation.Sums

/-!
# Reading written nodes

The text of a node without empty pools and pools of a single item is accepted
exactly if its terms are legible, its parentheses do not nest too deep and what
it is read as is well formed.  The result then has the structure that the terms
describe.
-/

namespace DiceNotation

open Building Node

namespace Parse

/-- What is known of how a written node is read, on all levels of the
grammar. -/
structure ReadsBack (tracer : Tracer) (whole : Text) (node : Node) : Prop where
  sum : ReadsAsSum tracer whole node
  group : ReadsAsGroup tracer whole (node.written .select)
  selection : ReadsAsSelection tracer whole (node.written .explode)
  before : node.binding ≠ .sum →
    ReadsBefore tracer whole (node.written .sum) (suffixes node)
  terms : ∀ t ∈ node.terms, ReadsInSum tracer whole t
  exploded : ∀ ⦃id : NodeId⦄ ⦃tracer' : Tracer⦄ ⦃inner : Node⦄,
    node = .explode id tracer' .greater none inner →
      ReadsAsSelection tracer whole (inner.written .explode)

variable {tracer : Tracer} {whole : Text} {node inner : Node}

theorem readsAsGroup_written
    (hplural : node.Plural)
    (hwellFormed : node.WellFormed)
    (hsum : ReadsAsSum tracer whole node) :
    ReadsAsGroup tracer whole (node.written .select) := by
  by_cases hgroup : node.binding = .group
  · exact readsAsGroup_of_group hplural hwellFormed hgroup
  · exact readsAsGroup_of_sum hsum hgroup

theorem readsAsSelection_written
    (hplural : node.Plural)
    (hwellFormed : node.WellFormed)
    (hselect : node.binding ≠ .select)
    (hsum : ReadsAsSum tracer whole node) :
    ReadsAsSelection tracer whole (node.written .explode) := by
  rw [written_explode_eq hselect]
  exact readsAsSelection_of_group
    (readsAsGroup_written hplural hwellFormed hsum)

theorem readsBefore_of_group
    (hplural : node.Plural)
    (hwellFormed : node.WellFormed)
    (hgroup : node.binding = .group) :
    ReadsBefore tracer whole (node.written .sum) 0 := by
  have hwritten : node.written .sum = node.written .select := by
    rw [written, written, enclose, enclose, encloseAt, encloseAt, hgroup]
    rfl
  rw [hwritten]
  exact readsBefore_of_selection
    (readsAsSelection_of_group
      (readsAsGroup_of_group hplural hwellFormed hgroup))

/-- Once the terms are read in sums, the node is read on all levels. -/
theorem readsBack_of_terms
    (hplural : node.Plural)
    (hwellFormed : node.WellFormed)
    (hterms : ∀ t ∈ node.terms, ReadsInSum tracer whole t)
    (hselection : node.binding = .select →
      ReadsAsSelection tracer whole (node.written .explode))
    (hbefore : node.binding ≠ .sum →
      ReadsBefore tracer whole (node.written .sum) (suffixes node))
    (hexploded : ∀ ⦃id : NodeId⦄ ⦃tracer' : Tracer⦄ ⦃inner : Node⦄,
      node = .explode id tracer' .greater none inner →
        ReadsAsSelection tracer whole (inner.written .explode)) :
    ReadsBack tracer whole node := by
  have hsum := readsAsSum_of_terms hplural.writtenAsTerms hterms
  refine ⟨hsum, readsAsGroup_written hplural hwellFormed hsum, ?_, hbefore,
    hterms, hexploded⟩
  by_cases hselect : node.binding = .select
  · exact hselection hselect
  · exact readsAsSelection_written hplural hwellFormed hselect hsum

/-- A modifier is its own and only term. -/
theorem readsInSum_terms
    {t : Term}
    (hplural : node.Plural)
    (hterms : node.terms = [t])
    (hsum : node.binding ≠ .sum)
    (hread : GroupFirst (node.written .sum).text →
      ReadsInSum tracer whole (node.written .sum)) :
    ∀ t ∈ node.terms, ReadsInSum tracer whole t := by
  have hlimit : ¬Binding.sum.rank ≤ node.binding.rank := by
    cases hbinding : node.binding with
    | sum => exact absurd hbinding hsum
    | _ => decide
  have hwritten : node.terms = [node.written .sum] := by
    rw [hterms, written_eq_of_terms hplural hterms hlimit]
  have hgroup := hplural.writtenAsTerms.groupFirst
  rw [hwritten, List.forall_mem_singleton] at hgroup ⊢
  exact hread hgroup

/-! ## One lemma for each kind of node -/

theorem readsBack_die
    {id : NodeId} {d : Die}
    (hwellFormed : (die id d).WellFormed) :
    ReadsBack tracer whole (die id d) := by
  have hplural : (die id d).Plural := .die id d
  have hterms : ∀ t ∈ (die id d).terms, ReadsInSum tracer whole t := by
    obtain ⟨hd⟩ := hwellFormed
    exact List.forall_mem_singleton.mpr (readsInSum_dice hd le_rfl)
  refine readsBack_of_terms hplural hwellFormed hterms ?_ ?_ ?_
  · rintro ⟨⟩
  · intro _
    exact readsBefore_of_group hplural hwellFormed rfl
  · rintro _ _ _ ⟨⟩

theorem readsBack_pool
    {id : NodeId} {items : List Node}
    (hitems : ∀ item ∈ items, item.Plural)
    (hlength : 2 ≤ items.length)
    (hwellFormed : (pool id items).WellFormed)
    (hback : ∀ item ∈ items, ReadsBack tracer whole item) :
    ReadsBack tracer whole (pool id items) := by
  have hplural : (pool id items).Plural := .pool hitems hlength
  have hterms : ∀ t ∈ (pool id items).terms, ReadsInSum tracer whole t := by
    refine forall_mem_terms_pool ?_ fun item hitem => (hback item hitem).terms
    intro item hitem d hd count hcount
    obtain ⟨id', rfl⟩ := eq_die_of_mem_die? hd
    obtain ⟨hd⟩ := (wellFormed_iff_members _).mp hwellFormed _ hitem
    exact readsInSum_dice hd hcount
  refine readsBack_of_terms hplural hwellFormed hterms ?_ ?_ ?_
  · intro hselect
    rcases binding_pool hlength with h | h <;>
      rw [h] at hselect <;> cases hselect
  · intro hsum
    exact readsBefore_of_group hplural hwellFormed
      ((binding_pool hlength).resolve_right hsum)
  · rintro _ _ _ ⟨⟩

theorem readsBack_dropKeep
    {id : NodeId} {tracer' : Tracer} {selection : Selection} {threshold : Nat}
    (hinner : inner.Plural)
    (hwellFormed : (dropKeep id tracer' selection threshold inner).WellFormed)
    (hback : ReadsBack tracer whole inner) :
    ReadsBack tracer whole (dropKeep id tracer' selection threshold inner) := by
  have hplural : (dropKeep id tracer' selection threshold inner).Plural :=
    .dropKeep hinner
  obtain ⟨-, -, -, hthreshold⟩ := wellFormed_dropKeep_iff.mp hwellFormed
  have hselection : ReadsAsSelection tracer whole
      ((dropKeep id tracer' selection threshold inner).written .explode) :=
    readsAsSelection_dropKeep hback.group hthreshold
  have hbefore : ReadsBefore tracer whole
      ((dropKeep id tracer' selection threshold inner).written .sum) 0 :=
    readsBefore_of_selection
      (t := (dropKeep id tracer' selection threshold inner).written _)
      hselection
  refine readsBack_of_terms hplural hwellFormed ?_ (fun _ => hselection)
    (fun _ => hbefore) ?_
  · refine readsInSum_terms hplural rfl (by rw [binding]; decide) ?_
    intro hgroup
    exact readsInSum_of_closed hgroup (spelled_written _ _) hbefore rfl
  · rintro _ _ _ ⟨⟩

theorem readsBack_explode
    {id : NodeId} {tracer' : Tracer} {comparator : Comparator}
    {threshold : Option Int}
    (hinner : inner.Plural)
    (hwellFormed : (explode id tracer' comparator threshold inner).WellFormed)
    (hback : ReadsBack tracer whole inner) :
    ReadsBack tracer whole (explode id tracer' comparator threshold inner) := by
  have hplural : (explode id tracer' comparator threshold inner).Plural :=
    .explode hinner
  refine readsBack_of_terms hplural hwellFormed ?_ ?_
    (fun _ => readsBefore_explode hback.selection hwellFormed) ?_
  · refine readsInSum_terms hplural rfl (by rw [binding]; decide) ?_
    intro hgroup
    exact readsInSum_explode hgroup hback.selection hwellFormed
  · rintro ⟨⟩
  · rintro _ _ _ ⟨⟩
    exact hback.selection

/-- A suffix stands behind parentheses, behind the suffixes of the inner node,
or behind a comparator, which takes its operand for a threshold. -/
theorem readsBefore_arithmetic
    {id : NodeId} {tracer' : Tracer} {op : Operator} {operand : Nat}
    (hinner : inner.Plural)
    (hwellFormed : (arithmetic id tracer' op operand inner).WellFormed)
    (hback : ReadsBack tracer whole inner) :
    ReadsBefore tracer whole
      ((arithmetic id tracer' op operand inner).written .sum)
      (suffixes (arithmetic id tracer' op operand inner)) := by
  obtain ⟨-, hoperand, hdivide⟩ := wellFormed_arithmetic_iff.mp hwellFormed
  by_cases henclosed : inner.binding = .sum ∨ 2 ≤ inner.chainLength
  · exact readsBefore_arithmetic_enclosed hinner hback.selection henclosed
      hoperand hdivide
  · push Not at henclosed
    by_cases hsign : inner.isOpen = true ∧ (op = .add ∨ op = .subtract)
    · obtain ⟨hopen, hop⟩ := hsign
      obtain ⟨id', tracer'', inner', rfl⟩ := eq_explode_of_isOpen hopen
      exact readsBefore_arithmetic_threshold (hback.exploded rfl) hop hoperand
    · push Not at hsign
      exact readsBefore_arithmetic_open hinner
        (hback.before henclosed.1) henclosed.1
        henclosed.2 hsign hoperand hdivide

theorem readsBack_arithmetic
    {id : NodeId} {tracer' : Tracer} {op : Operator} {operand : Nat}
    (hinner : inner.Plural)
    (hwellFormed : (arithmetic id tracer' op operand inner).WellFormed)
    (hback : ReadsBack tracer whole inner) :
    ReadsBack tracer whole (arithmetic id tracer' op operand inner) := by
  have hplural : (arithmetic id tracer' op operand inner).Plural :=
    .arithmetic hinner
  have hbefore := readsBefore_arithmetic hinner hwellFormed hback
  refine readsBack_of_terms hplural hwellFormed ?_ ?_ (fun _ => hbefore) ?_
  · refine readsInSum_terms hplural rfl (by rw [binding]; decide) ?_
    intro hgroup
    exact readsInSum_of_closed hgroup (spelled_written _ _) hbefore
      (isOpen_withSuffix op operand _)
  · rintro ⟨⟩
  · rintro _ _ _ ⟨⟩

/-- Every well-formed node is read as its terms say. -/
theorem readsBack
    (hplural : node.Plural)
    (hwellFormed : node.WellFormed) :
    ReadsBack tracer whole node := by
  -- A modifier needs its inner node on another level than its own, so all
  -- levels go through the induction together.
  induction hplural with
  | die id d => exact readsBack_die hwellFormed
  | pool hitems hlength ih =>
      have hmembers := (wellFormed_iff_members _).mp hwellFormed
      exact readsBack_pool hitems hlength hwellFormed fun item hitem =>
        ih item hitem (hmembers item hitem)
  | arithmetic hinner ih =>
      have hwell := (wellFormed_arithmetic_iff.mp hwellFormed).1
      exact readsBack_arithmetic hinner hwellFormed (ih hwell)
  | dropKeep hinner ih =>
      have hwell := (wellFormed_dropKeep_iff.mp hwellFormed).1
      exact readsBack_dropKeep hinner hwellFormed (ih hwell)
  | explode hinner ih =>
      have hwell := (wellFormed_explode_iff.mp hwellFormed).1
      exact readsBack_explode hinner hwellFormed (ih hwell)

end Parse

namespace Node

variable {node : Node} {tracer : Tracer}

/-- Parsing a text that is read as a sum is accepted exactly if it can be read
to its end. -/
theorem accepts_parse_of_readsAsSum
    (hwritten : WrittenAsTerms node)
    (hsum : Parse.ReadsAsSum tracer node.render node) :
    Accepts (parse tracer node.render)
      (node.isLegible = true ∧ node.render.nesting ≤ deepestNesting ∧
        node.reread.WellFormed)
      (fun n => n.bare = node.reread) := by
  have hne : node.render ≠ [] := hwritten.groupFirst_render.ne_nil
  have hread : Parse.Reads (Parse.expression tracer node.render deepestNesting
      (node.render ++ [])) _ _ [] := hsum (Or.inl rfl)
  rw [List.append_nil] at hread
  rw [parse, (spelled_render node).normalize, Parse.wholeText, if_neg hne]
  refine AcceptsUnless.congr (C := _ ∧ True) (hread.accepts_bind ?_ ?_)
    (and_true _).to_iff fun _ _ h => h
  · intro _ n hn
    exact accepts_pure trivial hn
  · rintro n r ⟨more, rfl⟩
    exact accepts_throw not_false

/-- Parsing the written node is accepted exactly under these conditions, and
returns the structure that the node is read as. -/
theorem accepts_parse_render
    (hplural : node.Plural)
    (hwellFormed : node.WellFormed)
    (tracer : Tracer) :
    Accepts (parse tracer node.render)
      (node.isLegible = true ∧ node.render.nesting ≤ deepestNesting ∧
        node.reread.WellFormed)
      (fun n => n.bare = node.reread) := by
  have hback : Parse.ReadsBack tracer node.render node :=
    Parse.readsBack hplural hwellFormed
  exact accepts_parse_of_readsAsSum hplural.writtenAsTerms hback.sum

end Node
end DiceNotation
