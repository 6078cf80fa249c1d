import DiceNotation.Proofs.Notation.Terms

/-!
# Shapes of written nodes

How the terms of a written node hang together with its binding: a group has the
term of a number of dice, a sum has at least two terms, and any other node has
a single term.
-/

namespace DiceNotation

namespace Term

theorem sum_of_length_ne_one
    {ts : List Term}
    (h : ts.length ≠ 1) :
    sum ts = .pool 0 (ts.map node) := by
  match ts, h with
  | [], _ => rfl
  | _ :: _ :: _, _ => rfl

/-- The conditions under which a term is read where parentheses may nest as deep
as said. -/
def Readable (t : Term) (depth : Nat) : Prop :=
  t.legible = true ∧ t.text.nesting ≤ depth ∧ t.node.WellFormed

theorem isPlain_dice (count : Nat) (d : Die) :
    ∀ c ∈ (dice count d).text, Text.IsPlain c := by
  rw [dice]
  dsimp only
  rw [Summand.counted]
  split
  · rw [List.forall_mem_append]
    exact ⟨isPlain_numeral _, isPlain_render_die _⟩
  · exact isPlain_render_die d

theorem spelled_dice (count : Nat) (d : Die) :
    Text.Spelled (dice count d).text :=
  Text.spelled_of_forall (isPlain_dice count d)

theorem nesting_dice (count : Nat) (d : Die) :
    (dice count d).text.nesting = 0 :=
  Text.nesting_of_forall (isPlain_dice count d)

theorem wellFormed_dice
    {count : Nat} {d : Die}
    (hd : d.WellFormed) :
    (dice count d).node.WellFormed := by
  rw [dice]
  dsimp only
  split
  · exact .die hd
  · refine .pool ?_
    intro item hitem
    rw [List.eq_of_mem_replicate hitem]
    exact .die hd

theorem readable_dice
    {count depth : Nat} {d : Die}
    (hd : d.WellFormed) :
    (dice count d).Readable depth ↔ count ≤ mostCopies := by
  have hnode : (dice count d).node.WellFormed := wellFormed_dice hd
  rw [Readable, nesting_dice, dice]
  simp only [decide_eq_true_eq]
  exact and_iff_left ⟨Nat.zero_le _, hnode⟩

end Term

namespace Node

/-- The node as a term, in parentheses if it binds as loosely as said. -/
def written (node : Node) (limit : Binding) : Term where
  text := node.enclose limit
  node := node.reread
  legible := node.isLegible

theorem spelled_written (node : Node) (limit : Binding) :
    Text.Spelled (node.written limit).text :=
  spelled_encloseAt (spelled_render node)

theorem written_eq_render
    {node : Node} {limit : Binding}
    (h : ¬limit.rank ≤ node.binding.rank) :
    (node.written limit).text = node.render := by
  rw [written, enclose, encloseAt, if_neg h]

theorem written_eq_parenthesize
    {node : Node} {limit : Binding}
    (h : limit.rank ≤ node.binding.rank) :
    (node.written limit).text = Text.parenthesize node.render := by
  rw [written, enclose, encloseAt, if_pos h]

theorem written_explode_eq
    {node : Node}
    (hselect : node.binding ≠ .select) :
    node.written .explode = node.written .select := by
  rw [written, written, enclose, enclose, encloseAt, encloseAt]
  cases hbinding : node.binding with
  | select => exact absurd hbinding hselect
  | _ => rfl

theorem written_eq_of_terms
    {node : Node} {t : Term} {limit : Binding}
    (hplural : node.Plural)
    (hterms : node.terms = [t])
    (hlimit : ¬limit.rank ≤ node.binding.rank) :
    node.written limit = t := by
  have htext := hplural.writtenAsTerms.text_eq_render hterms
  rw [written, enclose, encloseAt, if_neg hlimit, ← htext, reread,
    isLegible, hterms]
  rfl

theorem collapseAfter_of_same
    {d : Die} {first : Addend} {count : Nat} {rest : List Addend}
    (hfirst : first.die = some d)
    (hrest : ∀ a ∈ rest, a.die = some d) :
    Addend.collapseAfter first count rest =
      [Term.dice (count + rest.length) d] := by
  induction rest generalizing count with
  | nil => rw [Addend.collapseAfter, Addend.counted, hfirst]; rfl
  | cons next rest ih =>
      rw [List.forall_mem_cons] at hrest
      rw [Addend.collapseAfter, if_pos (by simp [hfirst, hrest.1]), ih hrest.2,
        List.length_cons, Nat.add_right_comm, Nat.add_assoc]

/-- A pool of the same dice has the term of as many dice. -/
theorem terms_of_same
    {id : NodeId} {items : List Node} {d : Die}
    (hne : items ≠ [])
    (hdice : ∀ item ∈ items, item.die? = some d) :
    (pool id items).terms = [Term.dice items.length d] := by
  cases items with
  | nil => exact absurd rfl hne
  | cons first rest =>
      rw [List.forall_mem_cons] at hdice
      rw [terms, addends_eq_map, List.map_cons, Addend.collapse,
        collapseAfter_of_same hdice.1 (List.forall_mem_map.mpr hdice.2),
        List.length_map, List.length_cons, Nat.add_comm]

/-- A pool is written as a single group exactly if its items are the same
die. -/
theorem binding_pool_eq_group_iff
    {id : NodeId} {items : List Node}
    (hlength : 2 ≤ items.length) :
    (pool id items).binding = .group ↔
      ∃ d, ∀ item ∈ items, item.die? = some d := by
  match items, hlength with
  | first :: second :: rest, _ =>
      simp only [binding, ite_eq_left_iff, reduceCtorEq,
        imp_false, not_not, Bool.and_eq_true,
        Option.isSome_iff_exists, List.all_eq_true, decide_eq_true_eq]
      constructor
      · rintro ⟨⟨d, hd⟩, hsame⟩
        exact ⟨d, List.forall_mem_cons.mpr
          ⟨hd, fun item hitem => (hsame item hitem).trans hd⟩⟩
      · rintro ⟨d, hdice⟩
        obtain ⟨hd, hrest⟩ := List.forall_mem_cons.mp hdice
        exact ⟨⟨d, hd⟩, fun item hitem => (hrest item hitem).trans hd.symm⟩

/-- A node that is written as a single group has the term of a number of
dice. -/
theorem exists_terms_eq_dice
    {node : Node}
    (hplural : node.Plural)
    (hgroup : node.binding = .group) :
    ∃ d count, 1 ≤ count ∧ node.terms = [Term.dice count d] ∧
      (node.WellFormed → d.WellFormed) := by
  cases hplural with
  | die id d =>
      refine ⟨d, 1, le_rfl, rfl, ?_⟩
      rintro ⟨hd⟩
      exact hd
  | @pool id items _ hlength =>
      obtain ⟨d, hdice⟩ := (binding_pool_eq_group_iff hlength).mp hgroup
      have hne : items ≠ [] := List.ne_nil_of_length_pos (by omega)
      refine ⟨d, items.length, by omega, terms_of_same hne hdice, ?_⟩
      intro hwellFormed
      obtain ⟨item, hitem⟩ := List.exists_mem_of_ne_nil items hne
      obtain ⟨id', rfl⟩ := eq_die_of_mem_die? (hdice item hitem)
      obtain ⟨hd⟩ := (wellFormed_iff_members _).mp hwellFormed _ hitem
      exact hd
  | arithmetic | dropKeep | explode => cases hgroup

/-- A sum that is no group has at least two terms. -/
theorem two_le_length_collapseAfter
    {first : Addend} {count : Nat} {rest : List Addend}
    (hfirst : first.terms ≠ [])
    (hrest : ∀ a ∈ rest, a.terms ≠ [])
    (hdifferent : ∃ a ∈ rest, ¬(first.die.isSome ∧ a.die = first.die)) :
    2 ≤ (Addend.collapseAfter first count rest).length := by
  induction rest generalizing first count with
  | nil =>
      obtain ⟨a, ha, -⟩ := hdifferent
      cases ha
  | cons next rest ih =>
      rw [List.forall_mem_cons] at hrest
      rw [Addend.collapseAfter]
      split
      · rename_i hsame
        rw [Bool.and_eq_true, decide_eq_true_eq] at hsame
        obtain ⟨a, ha, hne⟩ := hdifferent
        rcases List.mem_cons.mp ha with rfl | ha
        · exact absurd hsame hne
        · exact ih hfirst hrest.2 ⟨a, ha, hne⟩
      · have hhead :=
          List.length_pos_iff.mpr (Addend.counted_ne_nil hfirst count)
        have htail : Addend.collapseAfter next 1 rest ≠ [] :=
          Addend.collapseAfter_ne_nil hrest.1 hrest.2
        have hpos := List.length_pos_iff.mpr htail
        rw [List.length_append]
        omega

theorem two_le_length_terms
    {node : Node}
    (hplural : node.Plural)
    (hsum : node.binding = .sum) :
    2 ≤ node.terms.length := by
  cases hplural with
  | @pool id items hitems hlength =>
      match items, hlength with
      | first :: second :: rest, _ =>
          rw [binding] at hsum
          split at hsum
          · cases hsum
          · rename_i hdifferent
            rw [List.forall_mem_cons] at hitems
            rw [terms, addends_eq_map, List.map_cons, Addend.collapse]
            refine two_le_length_collapseAfter
              hitems.1.writtenAsTerms.terms_ne_nil ?_ ?_
            · exact List.forall_mem_map.mpr fun item hitem =>
                (hitems.2 item hitem).writtenAsTerms.terms_ne_nil
            · by_contra hall
              push Not at hall
              rw [List.forall_mem_map] at hall
              apply hdifferent
              rw [Bool.and_eq_true, List.all_eq_true]
              refine ⟨(hall second List.mem_cons_self).1, ?_⟩
              intro item hitem
              rw [decide_eq_true_eq]
              exact (hall item hitem).2
  | die | arithmetic | dropKeep | explode => cases hsum

theorem binding_pool
    {id : NodeId} {items : List Node}
    (hlength : 2 ≤ items.length) :
    (pool id items).binding = .group ∨ (pool id items).binding = .sum := by
  match items, hlength with
  | first :: second :: rest, _ =>
      rw [binding]
      split
      · exact Or.inl rfl
      · exact Or.inr rfl

theorem eq_explode_of_isOpen
    {node : Node}
    (h : node.isOpen = true) :
    ∃ id tracer inner, node = explode id tracer .greater none inner := by
  unfold isOpen at h
  split at h
  · exact ⟨_, _, _, rfl⟩
  · cases h

theorem isOpen_withSuffix
    (op : Operator)
    (operand : Nat)
    (node : Node) :
    (node.withSuffix op operand).isOpen = false := by
  unfold withSuffix
  split
  · cases op <;> rfl
  · rfl

theorem withSuffix_eq_arithmetic
    {op : Operator} {node : Node}
    (h : node.isOpen = true → op ≠ .add ∧ op ≠ .subtract)
    (operand : Nat) :
    node.withSuffix op operand =
      arithmetic 0 Tracer.silent op operand node := by
  unfold withSuffix
  split
  · obtain ⟨hadd, hsubtract⟩ := h rfl
    cases op with
    | add => exact absurd rfl hadd
    | subtract => exact absurd rfl hsubtract
    | _ => rfl
  · rfl

/-- A pool of the same dice is read as a pool of as many dice. -/
theorem reread_of_same
    {id : NodeId} {items : List Node} {d : Die}
    (hlength : 2 ≤ items.length)
    (hdice : ∀ item ∈ items, item.die? = some d) :
    (pool id items).reread =
      pool 0 (List.replicate items.length (die 0 d)) := by
  have hterms : (pool id items).terms = [Term.dice items.length d] :=
    terms_of_same (List.ne_nil_of_length_pos (by omega)) hdice
  rw [reread, hterms, Term.sum, Term.dice]
  exact if_neg (by omega)

/-- A pool is read as a pool. -/
theorem exists_reread_pool_eq
    {items : List Node}
    (hitems : ∀ item ∈ items, item.Plural)
    (hlength : 2 ≤ items.length)
    (id : NodeId) :
    ∃ items', (pool id items).reread = pool 0 items' := by
  obtain hgroup | hsum : (pool id items).binding = .group ∨ _ :=
    binding_pool hlength
  · obtain ⟨d, hdice⟩ := (binding_pool_eq_group_iff hlength).mp hgroup
    exact ⟨_, reread_of_same hlength hdice⟩
  · have hterms := two_le_length_terms (.pool hitems hlength) hsum
    exact ⟨_, Term.sum_of_length_ne_one (by omega)⟩

/-- What is read back has a comparator at its end if and only if the node has
one. -/
theorem isOpen_reread
    {node : Node}
    (hplural : node.Plural) :
    node.reread.isOpen = node.isOpen := by
  cases hplural with
  | die | dropKeep => rfl
  | arithmetic => exact isOpen_withSuffix _ _ _
  | @explode id tracer comparator threshold inner =>
      cases comparator <;> cases threshold <;> rfl
  | @pool id items hitems hlength =>
      obtain ⟨items', hreread⟩ := exists_reread_pool_eq hitems hlength id
      rw [hreread]
      rfl

/-! ## Modifiers -/

/-- What is written behind the exclamation mark. -/
def spelling (comparator : Comparator) : Option Int → Text
  | none => if comparator = .equal then [] else [comparator.symbol]
  | some t => comparator.symbol :: numeral t

theorem written_explode_text
    {id : NodeId} {tracer : Tracer} {comparator : Comparator}
    {threshold : Option Int} {inner : Node} :
    ((explode id tracer comparator threshold inner).written .sum).text =
      (inner.written .explode).text ++
        '!' :: spelling comparator threshold := by
  rw [written, enclose, binding, encloseAt, if_neg (by decide)]
  cases threshold <;> rw [render] <;> rfl

theorem isPlain_spelling
    {comparator : Comparator} {threshold : Option Int} :
    ∀ c ∈ '!' :: spelling comparator threshold, Text.IsPlain c := by
  rw [List.forall_mem_cons]
  refine ⟨by decide, ?_⟩
  cases threshold with
  | none =>
      rw [spelling]
      split
      · exact List.forall_mem_nil _
      · exact List.forall_mem_singleton.mpr
          (isPlain_symbol_comparator comparator)
  | some t =>
      rw [spelling, List.forall_mem_cons]
      exact ⟨isPlain_symbol_comparator comparator, isPlain_numeral _⟩

theorem written_arithmetic_text
    {id : NodeId} {tracer : Tracer} {op : Operator}
    {operand : Nat} {inner : Node} :
    ((arithmetic id tracer op operand inner).written .sum).text =
      (if inner.binding = .sum ∨ 2 ≤ inner.chainLength then
        Text.parenthesize inner.render
      else
        inner.render) ++ op.symbol :: numeral operand := by
  rw [written, enclose, binding, encloseAt, if_neg (by decide), render]

end Node

end DiceNotation
