import DiceNotation.Proofs.Notation.Canonical

/-!
# Shapes of what is read

How a node that is read from a written node compares with that node.  A sum is
read as a sum, a die as a die, and a modifier as a modifier of the same kind;
only an operand that stands right behind a comparator is read as a threshold.
Hence parentheses are needed at the same places, except where the threshold
makes a chain of operands shorter.
-/

namespace DiceNotation

namespace Term

theorem die?_dice (copies : Nat) (d : Die) :
    (dice copies d).node.die? = if copies = 1 then some d else none := by
  by_cases h : copies = 1 <;> simp [dice, h, Node.die?]

end Term

namespace Addend

variable {a first : Addend} {count : Nat} {rest : List Addend}

/-- The terms of a summand that is no die stand together in the sum. -/
theorem infix_collapseAfter
    (ha : a ∈ first :: rest)
    (hdie : a.die = none) :
    a.terms <:+: collapseAfter first count rest := by
  induction rest generalizing first count with
  | nil =>
      obtain rfl := List.mem_singleton.mp ha
      simp [collapseAfter, counted, hdie]
  | cons next rest ih =>
      rw [collapseAfter]
      split
      · rename_i hsame
        rw [Bool.and_eq_true, decide_eq_true_eq] at hsame
        obtain ⟨hsome, hnext⟩ := hsame
        simp only [List.mem_cons] at ha
        rcases ha with rfl | rfl | ha
        · simp [hdie] at hsome
        · simp [← hnext, hdie] at hsome
        · exact ih (List.mem_cons_of_mem _ ha)
      · rcases List.mem_cons.mp ha with rfl | ha
        · simpa [counted, hdie] using List.infix_append [] a.terms _
        · exact (ih ha).trans (List.suffix_append _ _).isInfix

/-- A die among the summands is a term of the sum, under a count. -/
theorem exists_dice_mem_collapseAfter
    {d : Die}
    (hd : some d ∈ (first :: rest).map die)
    (hcount : 1 ≤ count) :
    ∃ copies,
      1 ≤ copies ∧ Term.dice copies d ∈ collapseAfter first count rest := by
  induction rest generalizing first count with
  | nil =>
      simp only [List.map_cons, List.map_nil, List.mem_singleton] at hd
      exact ⟨count, hcount, by simp [collapseAfter, counted, ← hd]⟩
  | cons next rest ih =>
      simp only [List.map_cons, List.mem_cons] at hd
      rw [collapseAfter]
      split
      · rename_i hsame
        rw [Bool.and_eq_true, decide_eq_true_eq] at hsame
        apply ih _ (by omega)
        rw [hsame.2] at hd
        simpa using hd
      · rcases hd with hd | hd
        · exact ⟨count, hcount, by simp [counted, ← hd]⟩
        · obtain ⟨copies, hcopies, hmem⟩ := ih (by simpa using hd) le_rfl
          exact ⟨copies, hcopies, List.mem_append_right _ hmem⟩

end Addend

namespace Node

/-! ## What is read of a sum -/

section Pool

variable {id : NodeId} {items : List Node} {item : Node}

/-- An item that is no die keeps its terms in the sum. -/
theorem infix_terms_pool
    (hitem : item ∈ items)
    (hdie : item.die? = none) :
    item.terms <:+: (pool id items).terms := by
  cases items with
  | nil => cases hitem
  | cons first rest =>
      rw [terms, addends_eq_map, List.map_cons, Addend.collapse]
      have ha : (⟨item.die?, item.terms⟩ : Addend) ∈
          ⟨first.die?, first.terms⟩ :: rest.map fun item =>
            ⟨item.die?, item.terms⟩ := by
        rw [← List.map_cons
          (f := fun item : Node => (⟨item.die?, item.terms⟩ : Addend))]
        exact List.mem_map_of_mem hitem
      exact Addend.infix_collapseAfter ha hdie

theorem exists_dice_mem_terms_pool
    {d : Die}
    (hitem : item ∈ items)
    (hdie : item.die? = some d) :
    ∃ copies, 1 ≤ copies ∧ Term.dice copies d ∈ (pool id items).terms := by
  cases items with
  | nil => cases hitem
  | cons first rest =>
      rw [terms, addends_eq_map, List.map_cons, Addend.collapse]
      apply Addend.exists_dice_mem_collapseAfter _ le_rfl
      have hmem := List.mem_map_of_mem (f := die?) hitem
      rw [hdie] at hmem
      simpa [Function.comp_def] using hmem

end Pool

/-! ## Operands that are read as thresholds -/

/-- An arithmetic modifier whose operand is read as a threshold. -/
def isThresholded : Node → Bool
  | arithmetic _ _ .add _ inner => inner.isOpen
  | arithmetic _ _ .subtract _ inner => inner.isOpen
  | _ => false

/-- An arithmetic modifier right behind an operand that is read as a
threshold. -/
def isOnThreshold : Node → Bool
  | arithmetic _ _ _ _ inner => inner.isThresholded
  | _ => false

section Arithmetic

variable {id : NodeId} {tracer : Tracer} {op : Operator} {operand : Nat}
  {inner : Node}

theorem isThresholded_eq_true_iff :
    (arithmetic id tracer op operand inner).isThresholded = true ↔
      inner.isOpen = true ∧ (op = .add ∨ op = .subtract) := by
  cases op <;> simp [isThresholded]

theorem not_isThresholded_iff :
    ¬(arithmetic id tracer op operand inner).isThresholded = true ↔
      (inner.isOpen = true → op ≠ .add ∧ op ≠ .subtract) := by
  rw [isThresholded_eq_true_iff]
  push Not
  rfl

/-- The operand is read as a threshold, with its sign. -/
theorem reread_of_isThresholded
    (h : (arithmetic id tracer op operand inner).isThresholded = true) :
    ∃ id' tracer' inner', inner = explode id' tracer' .greater none inner' ∧
      (arithmetic id tracer op operand inner).reread =
        explode 0 Tracer.silent .greater
          (some (if op = .subtract then -operand else operand))
          inner'.reread := by
  obtain ⟨hopen, hop⟩ := isThresholded_eq_true_iff.mp h
  obtain ⟨id', tracer', inner', rfl⟩ := eq_explode_of_isOpen hopen
  refine ⟨id', tracer', inner', rfl, ?_⟩
  rcases hop with rfl | rfl <;> rfl

theorem reread_of_not_isThresholded
    (hinner : inner.Plural)
    (h : ¬(arithmetic id tracer op operand inner).isThresholded = true) :
    (arithmetic id tracer op operand inner).reread =
      arithmetic 0 Tracer.silent op operand inner.reread := by
  apply withSuffix_eq_arithmetic
  change inner.reread.isOpen = true → _
  rw [isOpen_reread hinner]
  exact not_isThresholded_iff.mp h

end Arithmetic

/-- A node that is no die is not read as a die. -/
theorem die?_reread
    {node : Node}
    (hplural : node.Plural) :
    node.reread.die? = node.die? := by
  cases hplural with
  | die | dropKeep | explode => rfl
  | @pool id items hitems hlength =>
      obtain ⟨items', hreread⟩ := exists_reread_pool_eq hitems hlength id
      rw [hreread]
      rfl
  | @arithmetic id tracer op operand inner hinner =>
      by_cases h : (arithmetic id tracer op operand inner).isThresholded = true
      · obtain ⟨_, _, _, -, hreread⟩ := reread_of_isThresholded h
        rw [hreread]
        rfl
      · rw [reread_of_not_isThresholded hinner h]
        rfl

/-- What is read is not read with a threshold in another way again. -/
theorem isThresholded_reread
    {node : Node}
    (hplural : node.Plural) :
    node.reread.isThresholded = false := by
  cases hplural with
  | die | dropKeep | explode => rfl
  | @pool id items hitems hlength =>
      obtain ⟨items', hreread⟩ := exists_reread_pool_eq hitems hlength id
      rw [hreread]
      rfl
  | @arithmetic id tracer op operand inner hinner =>
      by_cases h : (arithmetic id tracer op operand inner).isThresholded = true
      · obtain ⟨_, _, _, -, hreread⟩ := reread_of_isThresholded h
        rw [hreread]
        rfl
      · rw [reread_of_not_isThresholded hinner h, ← Bool.not_eq_true,
          not_isThresholded_iff, isOpen_reread hinner]
        exact not_isThresholded_iff.mp h

theorem isOnThreshold_reread
    {node : Node}
    (hplural : node.Plural) :
    node.reread.isOnThreshold = false := by
  cases hplural with
  | die | dropKeep | explode => rfl
  | @pool id items hitems hlength =>
      obtain ⟨items', hreread⟩ := exists_reread_pool_eq hitems hlength id
      rw [hreread]
      rfl
  | @arithmetic id tracer op operand inner hinner =>
      by_cases h : (arithmetic id tracer op operand inner).isThresholded = true
      · obtain ⟨_, _, _, -, hreread⟩ := reread_of_isThresholded h
        rw [hreread]
        rfl
      · rw [reread_of_not_isThresholded hinner h]
        exact isThresholded_reread hinner

/-- The terms of a sum are not all the same die. -/
theorem exists_term_die?_ne
    {node : Node}
    (hplural : node.Plural)
    (hsum : node.binding = .sum)
    (d : Die) :
    ∃ t ∈ node.terms, t.node.die? ≠ some d := by
  induction hplural with
  | die | arithmetic | dropKeep | explode => cases hsum
  | @pool id items hitems hlength ih =>
      by_contra hall
      push Not at hall
      have hdice : ∀ item ∈ items, item.die? = some d := by
        intro item hitem
        cases hdie : item.die? with
        | some d' =>
            obtain ⟨copies, -, hmem⟩ :
                ∃ copies,
                  1 ≤ copies ∧ Term.dice copies d' ∈ (pool id items).terms :=
              exists_dice_mem_terms_pool hitem hdie
            have hsame := hall _ hmem
            rw [Term.die?_dice] at hsame
            split at hsame
            · exact hsame
            · cases hsame
        | none =>
            have htogether : item.terms <:+: (pool id items).terms :=
              infix_terms_pool hitem hdie
            exfalso
            by_cases hitemSum : item.binding = .sum
            · obtain ⟨t, ht, hne⟩ := ih item hitem hitemSum
              exact hne (hall t (htogether.subset ht))
            · obtain ⟨t, hterms, hnode, -⟩ :=
                exists_terms_eq (hitems item hitem) hitemSum
              have ht : t ∈ item.terms := by simp [hterms]
              have hsame := hall t (htogether.subset ht)
              rw [hnode, die?_reread (hitems item hitem), hdie] at hsame
              cases hsame
      rw [(binding_pool_eq_group_iff hlength).mpr ⟨d, hdice⟩] at hsum
      cases hsum

/-! ## Parentheses -/

/-- A written node is read as a node that holds together as tightly, but for an
operand that becomes a threshold. -/
theorem binding_reread
    {node : Node}
    (hplural : node.Plural) :
    node.reread.binding = node.binding ∨
      node.reread.binding = .explode ∧ node.binding = .arithmetic := by
  cases hplural with
  | die | dropKeep | explode => exact Or.inl rfl
  | @arithmetic id tracer op operand inner hinner =>
      by_cases h : (arithmetic id tracer op operand inner).isThresholded = true
      · obtain ⟨_, _, _, -, hreread⟩ := reread_of_isThresholded h
        rw [hreread]
        exact Or.inr ⟨rfl, rfl⟩
      · rw [reread_of_not_isThresholded hinner h]
        exact Or.inl rfl
  | @pool id items hitems hlength =>
      left
      obtain hgroup | hsum : (pool id items).binding = .group ∨ _ :=
        binding_pool hlength
      · obtain ⟨d, hdice⟩ := (binding_pool_eq_group_iff hlength).mp hgroup
        rw [hgroup, reread_of_same hlength hdice,
          binding_pool_eq_group_iff (by simpa using hlength)]
        refine ⟨d, ?_⟩
        intro item hitem
        rw [List.eq_of_mem_replicate hitem, die?]
      · have hterms := two_le_length_terms (.pool hitems hlength) hsum
        have hlength' : 2 ≤ ((pool id items).terms.map Term.node).length := by
          simpa using hterms
        rw [reread, Term.sum_of_length_ne_one (by omega), hsum]
        refine (binding_pool hlength').resolve_left ?_
        rw [binding_pool_eq_group_iff hlength']
        rintro ⟨d, hdice⟩
        obtain ⟨t, ht, hne⟩ := exists_term_die?_ne (.pool hitems hlength) hsum d
        exact hne (hdice _ (List.mem_map_of_mem ht))

/-- What is read needs parentheses in front of a selection or an exclamation
mark if the node needs them. -/
theorem rank_le_binding_reread_iff
    {node : Node} {limit : Binding}
    (hplural : node.Plural)
    (hlimit : limit.rank ≤ Binding.explode.rank) :
    limit.rank ≤ node.reread.binding.rank ↔ limit.rank ≤ node.binding.rank := by
  rcases binding_reread hplural with h | ⟨h, h'⟩
  · rw [h]
  · rw [h, h']
    simp only [Binding.rank] at hlimit ⊢
    omega

theorem binding_reread_eq_sum_iff
    {node : Node}
    (hplural : node.Plural) :
    node.reread.binding = .sum ↔ node.binding = .sum := by
  rcases binding_reread hplural with h | ⟨h, h'⟩
  · rw [h]
  · simp [h, h']

theorem one_le_chainLength_reread_iff
    {node : Node}
    (hplural : node.Plural) :
    1 ≤ node.reread.chainLength ↔
      1 ≤ node.chainLength ∧ node.isThresholded = false := by
  cases hplural with
  | die | dropKeep | explode =>
      simp [reread, terms, Term.sum, Term.dice, chainLength]
  | @pool id items hitems hlength =>
      obtain ⟨items', hreread⟩ := exists_reread_pool_eq hitems hlength id
      simp [hreread, chainLength]
  | @arithmetic id tracer op operand inner hinner =>
      by_cases h : (arithmetic id tracer op operand inner).isThresholded = true
      · obtain ⟨_, _, _, -, hreread⟩ := reread_of_isThresholded h
        simp [hreread, h, chainLength]
      · rw [reread_of_not_isThresholded hinner h]
        simpa [chainLength] using h

/-- What is read stacks as many arithmetic modifiers, but for an operand that
becomes a threshold. -/
theorem two_le_chainLength_reread_iff
    {node : Node}
    (hplural : node.Plural) :
    2 ≤ node.reread.chainLength ↔
      2 ≤ node.chainLength ∧ node.isOnThreshold = false := by
  cases hplural with
  | die | dropKeep | explode =>
      simp [reread, terms, Term.sum, Term.dice, chainLength]
  | @pool id items hitems hlength =>
      obtain ⟨items', hreread⟩ := exists_reread_pool_eq hitems hlength id
      simp [hreread, chainLength]
  | @arithmetic id tracer op operand inner hinner =>
      by_cases h : (arithmetic id tracer op operand inner).isThresholded = true
      · obtain ⟨_, _, _, rfl, hreread⟩ := reread_of_isThresholded h
        simp [hreread, chainLength]
      · rw [reread_of_not_isThresholded hinner h]
        have hchain := one_le_chainLength_reread_iff hinner
        simpa [chainLength, isOnThreshold] using hchain

end Node
end DiceNotation
