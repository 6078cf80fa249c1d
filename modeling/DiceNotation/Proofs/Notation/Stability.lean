import DiceNotation.Proofs.Notation.Rereading
import DiceNotation.Proofs.Notation.Widths

/-!
# Texts that stay when they are written again

The notation of a node need not be its own notation.  Reading it gathers runs of
the same die that were inside of different sums, and turns a number that is
added to an explosion with a comparator at its end into a threshold.  The text
that the result is written as is shorter, and it is its own notation.
-/

namespace DiceNotation

namespace Node

/-! ## Settled nodes -/

/-- A node that is written as it will be written again: no neighbours of its
terms are the same die, and behind a comparator at the end of an explosion there
is no operand that loses its sign as a threshold, or that leaves two more
operands without parentheses. -/
inductive Settled : Node → Prop where
  | die (id : NodeId) (d : Die) : Settled (die id d)
  | pool {id : NodeId} {items : List Node} :
      (∀ item ∈ items, Settled item) → Term.Apart (pool id items).terms →
      Settled (pool id items)
  | arithmetic {id : NodeId} {tracer : Tracer} {op : Operator} {operand : Nat}
      {inner : Node} :
      Settled inner →
      (inner.isOpen = true → op ≠ .add ∧ (op = .subtract → operand ≠ 0)) →
      inner.isOnThreshold = false →
      Settled (arithmetic id tracer op operand inner)
  | dropKeep {id : NodeId} {tracer : Tracer} {selection : Selection}
      {threshold : Nat} {inner : Node} :
      Settled inner → Settled (dropKeep id tracer selection threshold inner)
  | explode {id : NodeId} {tracer : Tracer} {comparator : Comparator}
      {threshold : Option Int} {inner : Node} :
      Settled inner → Settled (explode id tracer comparator threshold inner)

section Settled

variable {id : NodeId} {tracer : Tracer} {inner : Node}

theorem settled_arithmetic_iff {op : Operator} {operand : Nat} :
    Settled (arithmetic id tracer op operand inner) ↔
      Settled inner ∧
        (inner.isOpen = true → op ≠ .add ∧ (op = .subtract → operand ≠ 0)) ∧
        inner.isOnThreshold = false := by
  constructor
  · rintro (_ | _ | ⟨hinner, hsign, hbehind⟩)
    exact ⟨hinner, hsign, hbehind⟩
  · rintro ⟨hinner, hsign, hbehind⟩
    exact .arithmetic hinner hsign hbehind

theorem settled_dropKeep_iff {selection : Selection} {threshold : Nat} :
    Settled (dropKeep id tracer selection threshold inner) ↔ Settled inner := by
  constructor
  · rintro (_ | _ | _ | hinner)
    exact hinner
  · exact .dropKeep

theorem settled_explode_iff {comparator : Comparator} {threshold : Option Int} :
    Settled (explode id tracer comparator threshold inner) ↔ Settled inner := by
  constructor
  · rintro (_ | _ | _ | _ | hinner)
    exact hinner
  · exact .explode

theorem settled_of_die?
    {node : Node} {d : Die}
    (h : node.die? = some d) :
    Settled node := by
  obtain ⟨id, rfl⟩ := eq_die_of_mem_die? h
  exact .die id d

end Settled

/-! ## Writing what is read -/

/-- The node is written as terms that get no longer by being read, and keeps its
text exactly if it is settled. -/
structure Reduces (node : Node) : Prop where
  shrinks : ∀ t ∈ node.terms, t.Shrinks
  settled_iff : node.Settled ↔ Term.Keep node.terms

theorem Reduces.narrows
    {node : Node}
    (h : Reduces node)
    (hplural : node.Plural) :
    Text.Narrows node.reread.render node.render node.Settled := by
  have hwritten := hplural.writtenAsTerms
  rw [h.settled_iff, hwritten.render_eq]
  exact Term.narrows_render_sum hwritten.terms_ne_nil h.shrinks

theorem Reduces.plural_reread
    {node : Node}
    (h : Reduces node)
    (hplural : node.Plural) :
    node.reread.Plural :=
  Term.plural_sum hplural.writtenAsTerms.terms_ne_nil h.shrinks

/-- A node that is written as a single term. -/
theorem reduces_of_narrows
    {node : Node}
    (hplural : node.Plural)
    (hbinding : node.binding ≠ .sum)
    (hreread : node.reread.Plural)
    (h : Text.Narrows node.reread.render node.render node.Settled) :
    Reduces node := by
  obtain ⟨t, hterms, hnode, -⟩ := exists_terms_eq hplural hbinding
  have htext := hplural.writtenAsTerms.text_eq_render hterms
  refine ⟨?_, ?_⟩
  · rw [hterms, List.forall_mem_singleton]
    refine ⟨by rwa [hnode], ?_, ?_⟩
    · rw [hnode]
      exact mt (binding_reread_eq_sum_iff hplural).mp hbinding
    · rw [hnode, htext]
      exact ⟨h.length_le, fun hsame => h.eq_of (h.of_length hsame),
        fun hsame => hsame⟩
  · rw [hterms, Term.keep_singleton_iff, hnode, htext]
    exact h.iff.symm

/-! ## One lemma for each kind of node -/

section Dice

variable {count : Nat}

theorem plural_dice
    (hcount : 1 ≤ count)
    (d : Die) :
    (Term.dice count d).node.Plural := by
  by_cases hone : count = 1
  · simpa [Term.dice, hone] using Plural.die 0 d
  · simp only [Term.dice, hone, if_false]
    apply Plural.pool
    · intro item hitem
      rw [List.eq_of_mem_replicate hitem]
      exact .die 0 d
    · rw [List.length_replicate]
      omega

theorem terms_dice
    (hcount : 1 ≤ count)
    (d : Die) :
    (Term.dice count d).node.terms = [Term.dice count d] := by
  by_cases hone : count = 1
  · simp [Term.dice, hone, terms]
  · simp only [Term.dice, hone, if_false]
    have hterms : (pool 0 (List.replicate count (die 0 d))).terms =
        [Term.dice (List.replicate count (die 0 d)).length d] := by
      apply terms_of_same
      · simp
        omega
      · intro item hitem
        rw [List.eq_of_mem_replicate hitem, die?]
    rw [hterms, List.length_replicate, Term.dice, if_neg hone]

theorem render_dice
    (hcount : 1 ≤ count)
    (d : Die) :
    (Term.dice count d).node.render = (Term.dice count d).text :=
  ((plural_dice hcount d).writtenAsTerms.text_eq_render
    (terms_dice hcount d)).symm

theorem shrinks_dice
    (hcount : 1 ≤ count)
    (d : Die) :
    (Term.dice count d).Shrinks := by
  refine ⟨plural_dice hcount d, ?_, ?_⟩
  · intro hsum
    have hterms := two_le_length_terms (plural_dice hcount d) hsum
    simp [terms_dice hcount d] at hterms
  · rw [render_dice hcount d]
    exact ⟨le_rfl, fun _ => rfl, fun _ => rfl⟩

theorem reduces_die (id : NodeId) (d : Die) : Reduces (die id d) := by
  refine ⟨?_, ?_⟩
  · rw [terms, List.forall_mem_singleton]
    exact shrinks_dice le_rfl d
  · rw [terms, Term.keep_singleton_iff, render_dice le_rfl d]
    simpa using Settled.die id d

end Dice

theorem reduces_pool
    {id : NodeId} {items : List Node}
    (h : ∀ item ∈ items, Reduces item) :
    Reduces (pool id items) := by
  refine ⟨?_, ?_⟩
  · apply forall_mem_terms_pool
    · intro item _ d _ count hcount
      exact shrinks_dice hcount d
    · exact fun item hitem => (h item hitem).shrinks
  constructor
  · rintro (_ | ⟨hsettled, hapart⟩)
    refine ⟨?_, hapart⟩
    apply forall_mem_terms_pool
    · intro item _ d _ count hcount
      exact render_dice hcount d
    · intro item hitem
      exact ((h item hitem).settled_iff.mp (hsettled item hitem)).render_eq
  · intro hkeep
    refine .pool ?_ hkeep.apart
    intro item hitem
    cases hdie : item.die? with
    | some d => exact settled_of_die? hdie
    | none =>
        have htogether : item.terms <:+: (pool id items).terms :=
          infix_terms_pool hitem hdie
        rw [(h item hitem).settled_iff]
        refine ⟨fun t ht => hkeep.render_eq t (htogether.subset ht), ?_⟩
        exact hkeep.apart.infix (htogether.map _)

theorem reduces_dropKeep
    {id : NodeId} {tracer : Tracer} {selection : Selection}
    {threshold : Nat} {inner : Node}
    (hinner : inner.Plural)
    (h : Reduces inner) :
    Reduces (dropKeep id tracer selection threshold inner) := by
  have hlimit : Binding.select.rank ≤ Binding.explode.rank := by decide
  have henclosed :=
    (h.narrows hinner).encloseAt (rank_le_binding_reread_iff hinner hlimit)
  apply reduces_of_narrows (.dropKeep hinner) (by simp [binding])
  · exact .dropKeep (h.plural_reread hinner)
  · change Text.Narrows
      (dropKeep 0 Tracer.silent selection threshold inner.reread).render _ _
    rw [settled_dropKeep_iff, render, render]
    exact (henclosed.append _).append _

theorem reduces_explode
    {id : NodeId} {tracer : Tracer} {comparator : Comparator}
    {threshold : Option Int} {inner : Node}
    (hinner : inner.Plural)
    (h : Reduces inner) :
    Reduces (explode id tracer comparator threshold inner) := by
  have henclosed :=
    (h.narrows hinner).encloseAt (rank_le_binding_reread_iff hinner le_rfl)
  apply reduces_of_narrows (.explode hinner) (by simp [binding])
  · exact .explode (h.plural_reread hinner)
  · change Text.Narrows
      (explode 0 Tracer.silent comparator threshold inner.reread).render _ _
    rw [settled_explode_iff]
    cases threshold with
    | none =>
        rw [render, render]
        exact henclosed.append _
    | some t =>
        rw [render, render]
        exact henclosed.append _

section Arithmetic

variable {id : NodeId} {tracer : Tracer} {op : Operator} {operand : Nat}
  {inner : Node}

/-- An operand that is read as a threshold loses a plus sign, and keeps a minus
sign unless it is zero. -/
theorem narrows_threshold
    {inner' : Node}
    (hopen : inner.isOpen = true)
    (hop : op = .add ∨ op = .subtract)
    (h : Text.Narrows (explode 0 Tracer.silent .greater none inner').render
      inner.render inner.Settled) :
    Text.Narrows
      (explode 0 Tracer.silent .greater
        (some (if op = .subtract then -operand else operand)) inner').render
      (arithmetic id tracer op operand inner).render
      (arithmetic id tracer op operand inner).Settled := by
  have hthreshold (t : Int) :
      (explode 0 Tracer.silent .greater (some t) inner').render =
        (explode 0 Tracer.silent .greater none inner').render ++ numeral t := by
    simp [render, Comparator.symbol]
  have hsuffix : (arithmetic id tracer op operand inner).render =
      inner.render ++ op.symbol :: numeral operand := by
    obtain ⟨id', tracer', inner'', rfl⟩ := eq_explode_of_isOpen hopen
    rw [render]
    simp [binding, chainLength]
  have hlonger (t : Int) (ht : (numeral t).length ≤ (numeral operand).length) :
      ((explode 0 Tracer.silent .greater (some t) inner').render).length <
        (inner.render ++ op.symbol :: numeral operand).length := by
    have hlength := h.length_le
    rw [hthreshold]
    simp only [List.length_append, List.length_cons]
    omega
  rw [hsuffix]
  rcases hop with rfl | rfl
  · apply Text.Narrows.of_length_lt (hlonger operand le_rfl)
    rw [settled_arithmetic_iff]
    rintro ⟨-, hsign, -⟩
    exact (hsign hopen).1 rfl
  · by_cases hzero : operand = 0
    · subst hzero
      apply Text.Narrows.of_length_lt (hlonger 0 le_rfl)
      rw [settled_arithmetic_iff]
      rintro ⟨-, hsign, -⟩
      exact (hsign hopen).2 rfl rfl
    · have hnumeral : numeral (-operand) = '-' :: numeral operand := by
        obtain ⟨k, rfl⟩ := Nat.exists_eq_succ_of_ne_zero hzero
        rfl
      have hsettled : (arithmetic id tracer .subtract operand inner).Settled ↔
          inner.Settled := by
        obtain ⟨id', tracer', inner'', rfl⟩ := eq_explode_of_isOpen hopen
        simp [settled_arithmetic_iff, hzero, isOnThreshold]
      rw [hsettled, if_pos rfl, hthreshold, hnumeral]
      exact h.append _

theorem stacked_of_isOnThreshold
    {node : Node}
    (h : node.isOnThreshold = true) :
    node.binding ≠ .sum ∧ 2 ≤ node.chainLength := by
  cases node with
  | arithmetic id tracer op operand inner =>
      cases inner with
      | arithmetic => simp [binding, chainLength]
      | _ => cases h
  | _ => cases h

/-- An operand that is read as an operand loses parentheses in front of it if
they were only there because of an operand that is read as a threshold. -/
theorem narrows_suffix
    (hinner : inner.Plural)
    (hsuffix : ¬(arithmetic id tracer op operand inner).isThresholded = true)
    (h : Text.Narrows inner.reread.render inner.render inner.Settled) :
    Text.Narrows (arithmetic 0 Tracer.silent op operand inner.reread).render
      (arithmetic id tracer op operand inner).render
      (arithmetic id tracer op operand inner).Settled := by
  have hbinding := binding_reread_eq_sum_iff hinner
  have hchain := two_le_chainLength_reread_iff hinner
  rw [render, render]
  by_cases hbehind : inner.isOnThreshold = true
  · obtain ⟨hsum, htwo⟩ := stacked_of_isOnThreshold hbehind
    have hopen :
        ¬(inner.reread.binding = .sum ∨ 2 ≤ inner.reread.chainLength) := by
      simp [hbinding, hchain, hsum, hbehind]
    rw [if_neg hopen, if_pos (Or.inr htwo)]
    apply Text.Narrows.of_length_lt
    · have hlength := h.length_le
      simp only [List.length_append, List.length_cons, Text.parenthesize]
      omega
    · simp [settled_arithmetic_iff, hbehind]
  · have hparentheses :
        (inner.reread.binding = .sum ∨ 2 ≤ inner.reread.chainLength) ↔
          (inner.binding = .sum ∨ 2 ≤ inner.chainLength) := by
      simp [hbinding, hchain, hbehind]
    have hsettled :
        (arithmetic id tracer op operand inner).Settled ↔ inner.Settled := by
      rw [settled_arithmetic_iff]
      constructor
      · exact And.left
      · intro hinnerSettled
        refine ⟨hinnerSettled, ?_, by simpa using hbehind⟩
        intro hopen
        obtain ⟨hadd, hsubtract⟩ := not_isThresholded_iff.mp hsuffix hopen
        exact ⟨hadd, fun hop => absurd hop hsubtract⟩
    rw [hsettled]
    by_cases henclosed : inner.binding = .sum ∨ 2 ≤ inner.chainLength
    · rw [if_pos (hparentheses.mpr henclosed), if_pos henclosed]
      exact h.parenthesize.append _
    · rw [if_neg (mt hparentheses.mp henclosed), if_neg henclosed]
      exact h.append _

theorem reduces_arithmetic
    (hinner : inner.Plural)
    (h : Reduces inner) :
    Reduces (arithmetic id tracer op operand inner) := by
  have hplural : (arithmetic id tracer op operand inner).Plural :=
    .arithmetic hinner
  have hreduced := h.plural_reread hinner
  by_cases hthresholded :
    (arithmetic id tracer op operand inner).isThresholded = true
  · obtain ⟨hopen, hop⟩ := isThresholded_eq_true_iff.mp hthresholded
    obtain ⟨id', tracer', inner', rfl, hreread⟩ :=
      reread_of_isThresholded hthresholded
    apply reduces_of_narrows hplural (by simp [binding])
    · rw [hreread]
      cases hreduced with
      | explode hinner' => exact .explode hinner'
    · rw [hreread]
      exact narrows_threshold hopen hop (h.narrows hinner)
  · have hreread := reread_of_not_isThresholded hinner hthresholded
    apply reduces_of_narrows hplural (by simp [binding])
    · rw [hreread]
      exact .arithmetic hreduced
    · rw [hreread]
      exact narrows_suffix hinner hthresholded (h.narrows hinner)

end Arithmetic

theorem reduces {node : Node} (hplural : node.Plural) : Reduces node := by
  induction hplural with
  | die id d => exact reduces_die id d
  | pool hitems hlength ih => exact reduces_pool ih
  | arithmetic hinner ih => exact reduces_arithmetic hinner ih
  | dropKeep hinner ih => exact reduces_dropKeep hinner ih
  | explode hinner ih => exact reduces_explode hinner ih

end Node

/-! ## Reading twice -/

namespace Addend

variable {first : Addend} {count : Nat} {rest : List Addend}

/-- A die, or a single term that is no die. -/
def Single (a : Addend) : Prop :=
  a.die = none → ∃ t, a.terms = [t] ∧ t.node.die? = none

/-- Copies of a summand with a single term are a single term. -/
theorem exists_counted_eq
    (h : Single first)
    (count : Nat) :
    ∃ t, first.counted count = [t] ∧
      (t.node.die? = none ∨ t.node.die? = first.die) := by
  cases hdie : first.die with
  | none =>
      obtain ⟨t, hterms, ht⟩ := h hdie
      exact ⟨t, by simp [counted, hdie, hterms], Or.inl ht⟩
  | some d =>
      refine ⟨Term.dice count d, by simp [counted, hdie], ?_⟩
      rw [Term.die?_dice]
      split
      · exact Or.inr rfl
      · exact Or.inl rfl

/-- Where runs of the same die are gathered, no neighbours are the same die. -/
theorem apart_collapseAfter
    (hfirst : Single first)
    (hrest : ∀ a ∈ rest, Single a) :
    ∃ t ts, collapseAfter first count rest = t :: ts ∧ Term.Apart (t :: ts) ∧
      (t.node.die? = none ∨ t.node.die? = first.die) := by
  induction rest generalizing first count with
  | nil =>
      obtain ⟨t, hcounted, ht⟩ := exists_counted_eq hfirst count
      exact ⟨t, [], hcounted, by simp [Term.Apart], ht⟩
  | cons next rest ih =>
      rw [List.forall_mem_cons] at hrest
      rw [collapseAfter]
      split
      · exact ih hfirst hrest.2
      · rename_i hdifferent
        obtain ⟨s, hcounted, hs⟩ := exists_counted_eq hfirst count
        obtain ⟨t, ts, hcollapse, hapart, ht⟩ :
            ∃ t ts, collapseAfter next 1 rest = t :: ts ∧ _ :=
          ih hrest.1 hrest.2
        have hneighbours : Die.Apart s.node.die? t.node.die? := by
          intro hsome hsame
          apply hdifferent
          rcases hs with hs | hs
          · simp [hs] at hsome
          · rcases ht with ht | ht
            · simp [← hsame, ht] at hsome
            · rw [hs] at hsome hsame
              rw [ht] at hsame
              simp [hsome, hsame]
        refine ⟨s, t :: ts, by rw [hcounted, hcollapse]; rfl, ?_, hs⟩
        exact List.isChain_cons_cons.mpr ⟨hneighbours, hapart⟩

theorem apart_collapse
    {as : List Addend}
    (h : ∀ a ∈ as, Single a) :
    Term.Apart (collapse as) := by
  cases as with
  | nil => simp [collapse, Term.Apart]
  | cons first rest =>
      rw [List.forall_mem_cons] at h
      obtain ⟨t, ts, hcollapse, hapart, -⟩ :
          ∃ t ts, collapseAfter first 1 rest = t :: ts ∧ _ :=
        apart_collapseAfter h.1 h.2
      rwa [collapse, hcollapse]

end Addend

namespace Node

/-- A sum of settled terms is settled once it has been read. -/
theorem settled_sum
    {ts : List Term}
    (hshrinks : ∀ t ∈ ts, t.Shrinks)
    (h : ∀ t ∈ ts, t.node.Settled) :
    (Term.sum ts).Settled := by
  by_cases hone : ts.length = 1
  · obtain ⟨t, rfl⟩ := List.length_eq_one_iff.mp hone
    exact h t (List.mem_singleton_self t)
  · have hsingle : ∀ t ∈ ts, Addend.Single ⟨t.node.die?, t.node.terms⟩ := by
      intro t ht hdie
      obtain ⟨s, hterms, hnode, -⟩ :=
        exists_terms_eq (hshrinks t ht).plural (hshrinks t ht).binding_ne_sum
      refine ⟨s, hterms, ?_⟩
      rw [hnode, die?_reread (hshrinks t ht).plural]
      exact hdie
    rw [Term.sum_of_length_ne_one hone]
    refine .pool (List.forall_mem_map.mpr h) ?_
    rw [terms, addends_eq_map, List.map_map]
    exact Addend.apart_collapse (List.forall_mem_map.mpr hsingle)

theorem settled_dice
    {count : Nat}
    (hcount : 1 ≤ count)
    (d : Die) :
    (Term.dice count d).node.Settled := by
  rw [(reduces (plural_dice hcount d)).settled_iff, terms_dice hcount d,
    Term.keep_singleton_iff]
  exact render_dice hcount d

theorem settled_reread_arithmetic
    {id : NodeId} {tracer : Tracer} {op : Operator}
    {operand : Nat} {inner : Node}
    (hinner : inner.Plural)
    (h : inner.reread.Settled) :
    (arithmetic id tracer op operand inner).reread.Settled := by
  by_cases hthresholded :
    (arithmetic id tracer op operand inner).isThresholded = true
  · obtain ⟨id', tracer', inner', rfl, hreread⟩ :=
      reread_of_isThresholded hthresholded
    rw [hreread, settled_explode_iff]
    exact settled_explode_iff.mp h
  · rw [reread_of_not_isThresholded hinner hthresholded]
    refine .arithmetic h ?_ (isOnThreshold_reread hinner)
    intro hopen
    rw [isOpen_reread hinner] at hopen
    obtain ⟨hadd, hsubtract⟩ := not_isThresholded_iff.mp hthresholded hopen
    exact ⟨hadd, fun hop => absurd hop hsubtract⟩

theorem settled_of_mem_terms
    {node : Node}
    (hplural : node.Plural) :
    ∀ t ∈ node.terms, t.node.Settled := by
  induction hplural with
  | die id d =>
      rw [terms, List.forall_mem_singleton]
      exact settled_dice le_rfl d
  | pool _ _ ih =>
      apply forall_mem_terms_pool
      · intro item _ d _ count hcount
        exact settled_dice hcount d
      · exact ih
  | arithmetic hinner ih =>
      rw [terms, List.forall_mem_singleton]
      exact settled_reread_arithmetic hinner
        (settled_sum (reduces hinner).shrinks ih)
  | dropKeep hinner ih =>
      rw [terms, List.forall_mem_singleton]
      exact .dropKeep (settled_sum (reduces hinner).shrinks ih)
  | explode hinner ih =>
      rw [terms, List.forall_mem_singleton]
      exact .explode (settled_sum (reduces hinner).shrinks ih)

/-- What a written node is read as is settled. -/
theorem settled_reread {node : Node} (hplural : node.Plural) :
    node.reread.Settled :=
  settled_sum (reduces hplural).shrinks (settled_of_mem_terms hplural)

/-- The terms of a node only depend on its structure. -/
theorem terms_bare (node : Node) : node.bare.terms = node.terms := by
  induction node using induction_members with
  | die id d => rfl
  | pool id items ih =>
      rw [bare_pool, terms, terms, addends_eq_map, addends_eq_map, List.map_map]
      congr 1
      apply List.map_congr_left
      intro item hitem
      rw [Function.comp_apply, die?_bare, ih item hitem]
  | arithmetic id tracer op operand inner ih =>
      have hrender := render_bare (arithmetic id tracer op operand inner)
      rw [bare] at hrender ⊢
      rw [terms, terms, hrender, ih]
  | dropKeep id tracer selection threshold inner ih =>
      have hrender := render_bare (dropKeep id tracer selection threshold inner)
      rw [bare] at hrender ⊢
      rw [terms, terms, hrender, ih]
  | explode id tracer comparator threshold inner ih =>
      have hrender := render_bare (explode id tracer comparator threshold inner)
      rw [bare] at hrender ⊢
      rw [terms, terms, hrender, ih]

theorem reread_bare (node : Node) : node.bare.reread = node.reread := by
  rw [reread, reread, terms_bare]

/-- A node that is read from the notation of a node has the structure that the
written node is read as. -/
theorem bare_eq_reread_of_parse
    {tracer : Tracer} {node again : Node}
    (hconstructed : Constructed node)
    (hplural : node.Plural)
    (h : (parse tracer node.render).Returns again) :
    again.bare = node.reread :=
  ((accepts_parse_render hplural hconstructed.wellFormed tracer).of_returns h).2

/-- The notation of a node is its own notation exactly if the node is settled,
and the notation that is read from it is always its own notation. -/
theorem render_parse_render_eq_iff_settled
    {tracer tracer' : Tracer} {text : Text} {node again : Node}
    (h : (parse tracer text).Returns node)
    (hagain : (parse tracer' node.render).Returns again) :
    (again.render = node.render ↔ node.Settled) ∧
      ∀ (tracer'' : Tracer) (third : Node),
        (parse tracer'' again.render).Returns third →
          third.render = again.render := by
  obtain ⟨hconstructed, hplural⟩ := Parse.parsed_of_parse h
  obtain ⟨hconstructed', hplural'⟩ := Parse.parsed_of_parse hagain
  have hreread : again.bare = node.reread :=
    bare_eq_reread_of_parse hconstructed hplural hagain
  have hrender : again.render = node.reread.render := by
    rw [← hreread, render_bare]
  refine ⟨?_, ?_⟩
  · rw [hrender]
    exact ((reduces hplural).narrows hplural).iff
  · intro tracer'' third hthird
    have hplural'' : node.reread.Plural :=
      (reduces hplural).plural_reread hplural
    have hstable :=
      ((reduces hplural'').narrows hplural'').eq_of (settled_reread hplural)
    calc third.render
        = again.reread.render := by
          rw [← bare_eq_reread_of_parse hconstructed' hplural' hthird,
            render_bare]
      _ = node.reread.reread.render := by rw [← reread_bare, hreread]
      _ = node.reread.render := hstable
      _ = again.render := hrender.symm

/-- A number that is added to an explosion in parentheses is written behind its
comparator, and becomes a threshold without a sign. -/
theorem not_settled_of_bare_comparator :
    ∃ node again, (parse Tracer.silent "(D6!>)+5".toList).Returns node ∧
      (parse Tracer.silent node.render).Returns again ∧
      node.render = "D6!>+5".toList ∧ again.render = "D6!>5".toList ∧
      ¬node.Settled := by
  have hread : (parse Tracer.silent "(D6!>)+5".toList).Returns
      (arithmetic 2 Tracer.silent .add 5
        (explode 1 Tracer.silent .greater none (die 0 (.sided 6)))) :=
    ⟨Memory.empty, by cbv⟩
  have hagain : (parse Tracer.silent "D6!>+5".toList).Returns
      (explode 1 Tracer.silent .greater (some 5) (die 0 (.sided 6))) :=
    ⟨Memory.empty, by cbv⟩
  have hsettled := (render_parse_render_eq_iff_settled hread hagain).1
  refine ⟨_, _, hread, hagain, rfl, rfl, ?_⟩
  rw [← hsettled]
  decide

/-- Equal dice of different sums are neighbours once the sums are flattened. -/
example :
    let node :=
      pool 0 [die 0 (.sided 6), pool 0 [die 0 (.sided 6), die 0 (.sided 4)]]
    node.render = "D6+D6+D4".toList ∧ node.reread.render = "2D6+D4".toList := by
  decide

end Node
end DiceNotation
