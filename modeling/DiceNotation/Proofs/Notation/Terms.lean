import DiceNotation.Proofs.Node.Bare
import DiceNotation.Proofs.Notation.Spelling
import DiceNotation.Proofs.Parse.Constructed
import DiceNotation.Proofs.Parse.Words

/-!
# What a written node is read as

A written node is read as a sum of terms, which need not have the structure of
the node.  Runs of the same die are read as a group, sums inside of sums are
read as terms of the outer sum, and a plus or minus sign right behind a
comparator is read as the sign of a threshold.  Two things cannot be read at
all: a count that is too large, and a term with a count right behind a
comparator, because the count is taken for a threshold.
-/

namespace DiceNotation

namespace Node

/-- No pool in the node is empty. -/
inductive Filled : Node → Prop where
  | die (id : NodeId) (d : Die) : Filled (die id d)
  | pool {id : NodeId} {items : List Node} :
      (∀ item ∈ items, Filled item) → items ≠ [] → Filled (pool id items)
  | arithmetic {id : NodeId} {tracer : Tracer} {op : Operator} {operand : Nat}
      {inner : Node} :
      Filled inner → Filled (arithmetic id tracer op operand inner)
  | dropKeep {id : NodeId} {tracer : Tracer} {selection : Selection}
      {threshold : Nat} {inner : Node} :
      Filled inner → Filled (dropKeep id tracer selection threshold inner)
  | explode {id : NodeId} {tracer : Tracer} {comparator : Comparator}
      {threshold : Option Int} {inner : Node} :
      Filled inner → Filled (explode id tracer comparator threshold inner)

theorem Plural.filled {node : Node} (h : node.Plural) : node.Filled := by
  induction h with
  | die id d => exact .die id d
  | pool _ hlength ih => exact .pool ih (List.ne_nil_of_length_pos (by omega))
  | arithmetic _ ih => exact .arithmetic ih
  | dropKeep _ ih => exact .dropKeep ih
  | explode _ ih => exact .explode ih

/-- An explosion that is written with a comparator at its end. -/
def isOpen : Node → Bool
  | explode _ _ .greater none _ => true
  | _ => false

/-- What a written suffix makes of the node in front of it: behind a comparator,
a signed number is a threshold. -/
def withSuffix (op : Operator) (operand : Nat) : Node → Node
  | explode id tracer .greater none inner =>
      match op with
      | .add => explode id tracer .greater (some operand) inner
      | .subtract => explode id tracer .greater (some (-operand)) inner
      | op =>
          arithmetic 0 Tracer.silent op operand
            (explode id tracer .greater none inner)
  | node => arithmetic 0 Tracer.silent op operand node

end Node

/-- A term of a written sum, with the structure that it is read as and whether
it can be read as long as no threshold is missing in front of it. -/
@[ext]
structure Term where
  text : Text
  node : Node
  legible : Bool

namespace Term

/-- The term starts with a count. -/
def isCounted (t : Term) : Bool :=
  t.text.head?.any Char.isDigit

/-- A number of copies of a die. -/
def dice (count : Nat) (d : Die) : Term where
  text := Summand.counted count d.render
  node :=
    if count = 1 then .die 0 d else .pool 0 (List.replicate count (.die 0 d))
  legible := count ≤ mostCopies

/-- The structure that terms are read as together. -/
def sum : List Term → Node
  | [t] => t.node
  | ts => .pool 0 (ts.map node)

/-- All terms can be read, and no count is taken for a missing threshold. -/
def areLegible : List Term → Bool
  | [] => true
  | [t] => t.legible
  | s :: t :: rest =>
      s.legible && !(s.node.isOpen && t.isCounted) && areLegible (t :: rest)

end Term

/-- A summand as the terms that it contributes, with the die it is if it is
one. -/
structure Addend where
  die : Option Die
  terms : List Term

namespace Addend

/-- The terms of as many copies of a summand as said. -/
def counted (count : Nat) (a : Addend) : List Term :=
  match a.die with
  | some d => [Term.dice count d]
  | none => a.terms

/-- The terms of summands that follow `count` copies of `first`, and of these
copies; a run of the same die becomes one term. -/
def collapseAfter (first : Addend) (count : Nat) : List Addend → List Term
  | [] => first.counted count
  | next :: rest =>
      if first.die.isSome && next.die = first.die then
        collapseAfter first (count + 1) rest
      else
        first.counted count ++ collapseAfter next 1 rest

/-- The terms of summands, with a single term for a run of the same die. -/
def collapse : List Addend → List Term
  | [] => []
  | first :: rest => collapseAfter first 1 rest

end Addend

namespace Node

mutual

/-- The terms that the written node consists of. -/
def terms : Node → List Term
  | die _ d => [Term.dice 1 d]
  | pool _ items => Addend.collapse (addends items)
  | arithmetic id tracer op operand inner => [{
      text := (arithmetic id tracer op operand inner).render
      node := (Term.sum (terms inner)).withSuffix op operand
      legible := Term.areLegible (terms inner) }]
  | dropKeep id tracer selection threshold inner => [{
      text := (dropKeep id tracer selection threshold inner).render
      node :=
        dropKeep 0 Tracer.silent selection threshold (Term.sum (terms inner))
      legible := Term.areLegible (terms inner) }]
  | explode id tracer comparator threshold inner => [{
      text := (explode id tracer comparator threshold inner).render
      node :=
        explode 0 Tracer.silent comparator threshold (Term.sum (terms inner))
      legible := Term.areLegible (terms inner) }]

/-- Nodes as the summands of a sum. -/
def addends : List Node → List Addend
  | [] => []
  | item :: rest => ⟨item.die?, terms item⟩ :: addends rest

end

/-- The structure that the written node is read as. -/
def reread (node : Node) : Node :=
  Term.sum node.terms

/-- Whether the written node can be read, as far as its counts and missing
thresholds are concerned. -/
def isLegible (node : Node) : Bool :=
  Term.areLegible node.terms

end Node

/-! ## The terms of a sum -/

namespace Addend

section Forall

variable {P : Term → Prop}

/-- All terms that copies of the summand contribute have a property. -/
def Contributes (P : Term → Prop) (a : Addend) : Prop :=
  (∀ d ∈ a.die, ∀ count, 1 ≤ count → P (Term.dice count d)) ∧ ∀ t ∈ a.terms, P t

theorem forall_mem_counted
    {a : Addend} {count : Nat}
    (hcount : 1 ≤ count)
    (h : Contributes P a) :
    ∀ t ∈ a.counted count, P t := by
  unfold counted
  split
  · rename_i d hd
    rw [List.forall_mem_singleton]
    exact h.1 d hd count hcount
  · exact h.2

theorem forall_mem_collapseAfter
    {first : Addend} {count : Nat} {rest : List Addend}
    (hcount : 1 ≤ count)
    (hfirst : Contributes P first)
    (hrest : ∀ a ∈ rest, Contributes P a) :
    ∀ t ∈ collapseAfter first count rest, P t := by
  induction rest generalizing first count with
  | nil => exact forall_mem_counted hcount hfirst
  | cons next rest ih =>
      rw [List.forall_mem_cons] at hrest
      rw [collapseAfter]
      split
      · exact ih (Nat.le_succ_of_le hcount) hfirst hrest.2
      · rw [List.forall_mem_append]
        exact ⟨forall_mem_counted hcount hfirst, ih le_rfl hrest.1 hrest.2⟩

theorem forall_mem_collapse
    {as : List Addend}
    (h : ∀ a ∈ as, Contributes P a) :
    ∀ t ∈ collapse as, P t := by
  cases as with
  | nil => exact List.forall_mem_nil _
  | cons first rest =>
      rw [List.forall_mem_cons] at h
      exact forall_mem_collapseAfter le_rfl h.1 h.2

end Forall

theorem counted_ne_nil
    {a : Addend}
    (h : a.terms ≠ [])
    (count : Nat) :
    a.counted count ≠ [] := by
  unfold counted
  split
  · exact List.cons_ne_nil _ _
  · exact h

theorem collapseAfter_ne_nil
    {first : Addend} {count : Nat} {rest : List Addend}
    (hfirst : first.terms ≠ [])
    (hrest : ∀ a ∈ rest, a.terms ≠ []) :
    collapseAfter first count rest ≠ [] := by
  induction rest generalizing first count with
  | nil => exact counted_ne_nil hfirst count
  | cons next rest ih =>
      rw [List.forall_mem_cons] at hrest
      rw [collapseAfter]
      split
      · exact ih hfirst hrest.2
      · exact List.append_ne_nil_of_left_ne_nil (counted_ne_nil hfirst count) _

end Addend

namespace Node

theorem addends_eq_map (items : List Node) :
    addends items = items.map fun item => ⟨item.die?, item.terms⟩ := by
  induction items with
  | nil => rfl
  | cons item rest ih => rw [addends, ih, List.map_cons]

theorem eq_die_of_mem_die?
    {node : Node} {d : Die}
    (h : d ∈ node.die?) :
    ∃ id, node = die id d := by
  cases node with
  | die id d' =>
      cases h
      exact ⟨id, rfl⟩
  | _ => cases h

/-- All terms of a pool have a property if the terms of its items have, and
groups of the dice among them. -/
theorem forall_mem_terms_pool
    {P : Term → Prop} {id : NodeId} {items : List Node}
    (hdice : ∀ item ∈ items,
      ∀ d ∈ item.die?, ∀ count, 1 ≤ count → P (Term.dice count d))
    (hterms : ∀ item ∈ items, ∀ t ∈ item.terms, P t) :
    ∀ t ∈ (pool id items).terms, P t := by
  rw [terms, addends_eq_map]
  refine Addend.forall_mem_collapse (List.forall_mem_map.mpr ?_)
  intro item hitem
  exact ⟨hdice item hitem, hterms item hitem⟩

/-! ## The text of a sum -/

theorem intercalate_append
    {sep : Text} {xs ys : List Text}
    (hxs : xs ≠ [])
    (hys : ys ≠ []) :
    sep.intercalate (xs ++ ys) =
      sep.intercalate xs ++ sep ++ sep.intercalate ys := by
  induction xs with
  | nil => exact absurd rfl hxs
  | cons x xs ih =>
      cases xs with
      | nil =>
          rw [List.intercalate_singleton, List.cons_append, List.nil_append,
            List.intercalate_cons_of_ne_nil hys]
      | cons x' xs =>
          rw [List.cons_append, List.intercalate_cons_of_ne_nil
            (List.append_ne_nil_of_right_ne_nil _ hys),
            ih (List.cons_ne_nil _ _),
            List.intercalate_cons_cons, List.append_assoc, List.append_assoc,
            List.append_assoc, List.append_assoc, List.append_assoc]

/-- The node is written as its terms with plus signs between them. -/
structure WrittenAsTerms (node : Node) : Prop where
  terms_ne_nil : node.terms ≠ []
  render_eq : node.render = ['+'].intercalate (node.terms.map Term.text)
  groupFirst : ∀ t ∈ node.terms, Parse.GroupFirst t.text

theorem groupFirst_dice
    (count : Nat)
    (d : Die) :
    Parse.GroupFirst (Term.dice count d).text := by
  rw [Term.dice, Parse.render_die_eq]
  dsimp only
  rw [Summand.counted]
  split
  · exact Or.inl ⟨numeral count, _, Parse.isDigit_numeral _, rfl⟩
  · exact Or.inl ⟨[], _, List.forall_mem_nil _, rfl⟩

theorem WrittenAsTerms.groupFirst_render
    {node : Node}
    (h : WrittenAsTerms node) :
    Parse.GroupFirst node.render := by
  rw [h.render_eq]
  cases hterms : node.terms with
  | nil => exact absurd hterms h.terms_ne_nil
  | cons t rest =>
      have ht := h.groupFirst t (by rw [hterms]; exact List.mem_cons_self)
      cases rest with
      | nil =>
          rw [List.map_singleton, List.intercalate_singleton]
          exact ht
      | cons t' rest =>
          rw [List.map_cons, List.map_cons, List.intercalate_cons_cons,
            List.append_assoc]
          exact ht.append _

/-- A node with a single term is written as this term. -/
theorem WrittenAsTerms.text_eq_render
    {node : Node} {t : Term}
    (h : WrittenAsTerms node)
    (hterms : node.terms = [t]) :
    t.text = node.render := by
  rw [h.render_eq, hterms, List.map_singleton, List.intercalate_singleton]

theorem intercalate_counted
    {item : Node} {count : Nat}
    (hcount : item.die? = none → count = 1)
    (hitem : WrittenAsTerms item) :
    ['+'].intercalate
        ((Addend.counted count ⟨item.die?, item.terms⟩).map Term.text) =
      Summand.counted count item.render := by
  cases hd : item.die? with
  | none =>
      rw [hcount hd]
      exact hitem.render_eq.symm
  | some d =>
      obtain ⟨id, rfl⟩ := eq_die_of_mem_die? hd
      rw [Addend.counted, List.map_singleton, List.intercalate_singleton]
      rfl

/-- Counted runs have the same text in the written sum and among the terms. -/
theorem intercalate_collapseAfter
    {first : Node} {count : Nat} {rest : List Node}
    (hcount : first.die? = none → count = 1)
    (hfirst : WrittenAsTerms first)
    (hrest : ∀ item ∈ rest, WrittenAsTerms item) :
    ['+'].intercalate
        ((Addend.collapseAfter ⟨first.die?, first.terms⟩ count
          (addends rest)).map Term.text) =
      ['+'].intercalate
        (Summand.collapseAfter ⟨first.die?, first.render⟩ count
          (summands rest)) := by
  -- The count goes through the induction: a run is still open when its next die
  -- comes.
  induction rest generalizing first count with
  | nil =>
      rw [summands, addends, Summand.collapseAfter, Addend.collapseAfter,
        List.intercalate_singleton]
      exact intercalate_counted hcount hfirst
  | cons next rest ih =>
      rw [List.forall_mem_cons] at hrest
      rw [summands, addends, Summand.collapseAfter, Addend.collapseAfter]
      dsimp only
      split
      · rename_i hsame
        rw [Bool.and_eq_true] at hsame
        refine ih ?_ hfirst hrest.2
        intro h
        rw [h] at hsame
        cases hsame.1
      · have hterms :
            Addend.collapseAfter ⟨next.die?, next.terms⟩ 1 (addends rest) ≠
              [] := by
          rw [addends_eq_map]
          refine Addend.collapseAfter_ne_nil hrest.1.terms_ne_nil ?_
          exact List.forall_mem_map.mpr fun item hitem =>
            (hrest.2 item hitem).terms_ne_nil
        have htexts : Summand.collapseAfter ⟨next.die?, next.render⟩ 1
            (summands rest) ≠ [] :=
          Summand.collapseAfter_ne_nil
        rw [List.map_append, intercalate_append
          (mt List.map_eq_nil_iff.mp
            (Addend.counted_ne_nil hfirst.terms_ne_nil count))
          (mt List.map_eq_nil_iff.mp hterms),
          List.intercalate_cons_of_ne_nil htexts,
          intercalate_counted hcount hfirst, ih (fun _ => rfl) hrest.1 hrest.2]

theorem render_pool
    {id : NodeId} {items : List Node}
    (h : ∀ item ∈ items, item.render ≠ []) :
    (pool id items).render =
      ['+'].intercalate (Summand.collapse (summands items)) := by
  rw [render, Summand.join]
  cases items with
  | nil => rfl
  | cons first rest =>
      have htexts :
          ∀ summand ∈ summands (first :: rest), summand.text ≠ [] := by
        rw [summands_eq_map]
        exact List.forall_mem_map.mpr h
      rw [summands] at htexts ⊢
      have hne :
          ∀ s ∈ Summand.collapseAfter ⟨first.die?, first.render⟩ 1
            (summands rest), s ≠ [] :=
        Summand.forall_mem_collapseAfter
          (fun _ _ => Summand.counted_ne_nil) htexts
      rw [Summand.collapse]
      cases hcollapse :
        Summand.collapseAfter ⟨first.die?, first.render⟩ 1 (summands rest) with
      | nil => rfl
      | cons s texts =>
          rw [hcollapse, List.forall_mem_cons] at hne
          rw [List.dropWhile_cons_of_neg]
          rw [List.isEmpty_iff]
          exact hne.1

theorem writtenAsTerms_of_singleton
    {node : Node} {t : Term}
    (hterms : node.terms = [t])
    (htext : t.text = node.render)
    (h : Parse.GroupFirst node.render) :
    WrittenAsTerms node := by
  refine ⟨?_, ?_, ?_⟩
  · rw [hterms]
    exact List.cons_ne_nil _ _
  · rw [hterms, List.map_singleton, List.intercalate_singleton, htext]
  · rw [hterms, List.forall_mem_singleton, htext]
    exact h

theorem groupFirst_encloseAt
    {limit binding : Binding} {s : Text}
    (h : Parse.GroupFirst s) :
    Parse.GroupFirst (encloseAt limit binding s) := by
  rw [encloseAt]
  split
  · exact Or.inr ⟨_, rfl⟩
  · exact h

theorem writtenAsTerms_pool
    {id : NodeId} {items : List Node}
    (hitems : ∀ item ∈ items, WrittenAsTerms item)
    (hne : items ≠ []) :
    WrittenAsTerms (pool id items) := by
  cases items with
  | nil => exact absurd rfl hne
  | cons first rest =>
      have hrender : (pool id (first :: rest)).render =
          ['+'].intercalate (Summand.collapse (summands (first :: rest))) :=
        render_pool fun item hitem =>
          (hitems item hitem).groupFirst_render.ne_nil
      rw [List.forall_mem_cons] at hitems
      refine ⟨?_, ?_, ?_⟩
      · rw [terms, addends_eq_map]
        refine Addend.collapseAfter_ne_nil hitems.1.terms_ne_nil ?_
        exact List.forall_mem_map.mpr fun item hitem =>
          (hitems.2 item hitem).terms_ne_nil
      · rw [hrender]
        exact (intercalate_collapseAfter (fun _ => rfl) hitems.1 hitems.2).symm
      · refine forall_mem_terms_pool
          (fun _ _ d _ count _ => groupFirst_dice count d) ?_
        rw [List.forall_mem_cons]
        exact ⟨hitems.1.groupFirst,
          fun item hitem => (hitems.2 item hitem).groupFirst⟩

/-- A node without empty pools is written as its terms with plus signs between
them. -/
theorem Filled.writtenAsTerms {node : Node} (h : node.Filled) :
    WrittenAsTerms node := by
  induction h with
  | die id d => exact writtenAsTerms_of_singleton rfl rfl (groupFirst_dice 1 d)
  | pool _ hne ih => exact writtenAsTerms_pool ih hne
  | arithmetic _ ih =>
      refine writtenAsTerms_of_singleton rfl rfl ?_
      rw [render]
      split
      · exact Or.inr ⟨_, rfl⟩
      · exact ih.groupFirst_render.append _
  | dropKeep _ ih =>
      refine writtenAsTerms_of_singleton rfl rfl ?_
      rw [render]
      exact ((groupFirst_encloseAt ih.groupFirst_render).append _).append _
  | @explode id tracer comparator threshold inner _ ih =>
      refine writtenAsTerms_of_singleton rfl rfl ?_
      have hinner :
          Parse.GroupFirst (encloseAt .explode inner.binding inner.render) :=
        groupFirst_encloseAt ih.groupFirst_render
      cases threshold with
      | none =>
          rw [render]
          exact hinner.append _
      | some t =>
          rw [render]
          exact hinner.append _

theorem Plural.writtenAsTerms {node : Node} (h : node.Plural) :
    WrittenAsTerms node :=
  h.filled.writtenAsTerms

end Node
end DiceNotation
