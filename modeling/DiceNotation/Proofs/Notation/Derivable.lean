import DiceNotation.Proofs.Notation.Trailing

/-!
# Derivable notations

A written node can be derived on the level of its binding, unless some part of
it ends with more than two arithmetic suffixes.  Two suffixes behind a node are
put into parentheses before the next one is written, but a pool of a single
item hides them.
-/

namespace DiceNotation

open Grammar

/-! ## Terms with a number of suffixes -/

namespace Grammar

theorem Suffixed.mono
    {tracer : Tracer} {allowed more : Nat} {inner node : Node} {t : Text}
    (h : Suffixed tracer allowed inner t node)
    (hmore : allowed ≤ more) :
    Suffixed tracer more inner t node := by
  induction h generalizing more with
  | none => exact .none more _
  | suffix id op hs _ ih =>
      obtain ⟨more, rfl⟩ := Nat.exists_eq_add_of_lt hmore
      exact .suffix id op hs (ih (by omega))

/-- One more suffix behind suffixes. -/
theorem Suffixed.snoc
    {tracer : Tracer} {allowed n : Nat} {inner node : Node} {s t : Text}
    (h : Suffixed tracer allowed inner t node)
    (op : Operator)
    (hs : Number s n) :
    Suffixed tracer (allowed + 1) inner (t ++ op.symbol :: s)
      (.arithmetic 0 tracer op n node) := by
  induction h with
  | none allowed inner =>
      have hsuffix := Suffixed.suffix 0 op hs
        (.none allowed (.arithmetic 0 tracer op n inner))
      rwa [List.append_nil] at hsuffix
  | suffix id op' hs' _ ih =>
      rw [List.cons_append, List.append_assoc]
      exact .suffix id op' hs' ih

/-- The text is derivable as a group with a selection and an explosion, perhaps,
and at most so many suffixes behind them. -/
inductive Stacked : Nat → Text → Prop where
  | mk {level : Binding} {count : Nat} {s t : Text} {tracer : Tracer}
      {inner node : Node} :
      level.rank < Binding.arithmetic.rank → Derives level s →
      Suffixed tracer count inner t node → Stacked count (s ++ t)

theorem Derives.stacked
    {level : Binding} {s : Text}
    (h : Derives level s)
    (hlevel : level.rank < Binding.arithmetic.rank) :
    Stacked 0 s := by
  have hnone : Suffixed Tracer.silent 0 (.die 0 .fudge) [] (.die 0 .fudge) :=
    .none 0 _
  have hstacked : Stacked 0 (s ++ []) := .mk hlevel h hnone
  rwa [List.append_nil] at hstacked

theorem Stacked.derives
    {count : Nat} {s : Text}
    (h : Stacked count s)
    (hcount : count ≤ 2) :
    Derives .arithmetic s := by
  obtain ⟨hlevel, hs, ht⟩ := h
  exact .term hlevel hs (ht.mono hcount)

theorem Stacked.suffix
    {count n : Nat} {s t : Text}
    (h : Stacked count s)
    (op : Operator)
    (ht : Number t n) :
    Stacked (count + 1) (s ++ op.symbol :: t) := by
  obtain ⟨hlevel, hs, hsuffixed⟩ := h
  rw [List.append_assoc]
  exact .mk hlevel hs (hsuffixed.snoc op ht)

end Grammar

namespace Node

/-! ## Nodes without a suffix too many -/

/-- What is known of how a written node can be derived. -/
structure DerivesBack (node : Node) : Prop where
  level : Derives node.binding node.render
  terms : ∀ t ∈ node.terms, Derives .arithmetic t.text
  stacked : node.binding ≠ .sum → Stacked node.trailing node.render
  opened :
    node.endsOpen = true → ∃ (level : Binding) (s : Text) (c : Comparator),
      level.rank < Binding.explode.rank ∧ Derives level s ∧
      node.render = s ++ ['!', c.symbol]

variable {node inner : Node}

theorem derivesBack_of_level
    (hlevel : Derives node.binding node.render)
    (hrank : node.binding.rank < Binding.arithmetic.rank)
    (hterms : ∀ t ∈ node.terms, t.text = node.render)
    (htrailing : node.trailing = 0)
    (hopened :
      node.endsOpen = true → ∃ (level : Binding) (s : Text) (c : Comparator),
        level.rank < Binding.explode.rank ∧ Derives level s ∧
        node.render = s ++ ['!', c.symbol]) :
    DerivesBack node where
  level := hlevel
  terms t ht := by
    rw [hterms t ht]
    exact hlevel.arithmetic hrank
  stacked _ := by
    rw [htrailing]
    exact hlevel.stacked hrank
  opened := hopened

/-- A number of copies of a die is derivable as a group. -/
theorem derives_dice
    {d : Die} {count : Nat}
    (hd : d.WellFormed)
    (hcount : 1 ≤ count) :
    Derives .group (Term.dice count d).text := by
  rw [Term.dice]
  dsimp only
  rw [Summand.counted, Parse.render_die_eq]
  split
  · exact .dice (Parse.decimal_numeral count) hcount (Parse.sides_render hd)
  · exact .die (Parse.sides_render hd)

/-- In parentheses where it binds too loosely, a derivable node can be derived
in front of what binds it. -/
theorem exists_derives_enclose
    {limit : Binding}
    (h : Derives node.binding node.render)
    (hlimit : Binding.group.rank < limit.rank) :
    ∃ level : Binding, level.rank < limit.rank ∧
      Derives level (encloseAt limit node.binding node.render) := by
  rw [encloseAt]
  split
  · exact ⟨.group, hlimit, .enclosed h.sum⟩
  · rename_i hrank
    exact ⟨node.binding, Nat.lt_of_not_le hrank, h⟩

theorem derivesBack_die
    {id : NodeId} {d : Die}
    (hd : d.WellFormed) :
    DerivesBack (die id d) := by
  refine derivesBack_of_level (derives_dice hd le_rfl)
    (by rw [binding]; decide) ?_ rfl ?_
  · exact List.forall_mem_singleton.mpr rfl
  · rintro ⟨⟩

theorem derivesBack_dropKeep
    {id : NodeId} {tracer : Tracer} {selection : Selection} {threshold : Nat}
    (hthreshold : (threshold : Int) ≤ Limits.highest)
    (hback : DerivesBack inner) :
    DerivesBack (dropKeep id tracer selection threshold inner) := by
  obtain ⟨level, hlevel, hinner⟩ :
      ∃ level : Binding, level.rank < Binding.select.rank ∧ Derives level _ :=
    exists_derives_enclose hback.level (by decide)
  have hgroup : level = .group := by
    cases level <;> first | rfl | exact absurd hlevel (by decide)
  rw [hgroup] at hinner
  have hselection : Derives .select
      (dropKeep id tracer selection threshold inner).render := by
    rw [render, List.append_assoc]
    have hselected :
        Selected Tracer.silent inner (selection.code ++ numeral threshold)
          (dropKeep 0 Tracer.silent selection threshold inner) :=
      .threshold 0 selection (Parse.number_numeral hthreshold)
    refine .select hinner hselected ?_
    exact List.append_ne_nil_of_right_ne_nil _ (Numeral.numeral_ne_nil _)
  refine derivesBack_of_level hselection (by rw [binding]; decide) ?_ rfl ?_
  · exact List.forall_mem_singleton.mpr rfl
  · rintro ⟨⟩

/-- What is written behind a node that explodes is an explosion. -/
theorem exists_exploded_spelling
    {threshold : Option Int}
    (hthreshold : ∀ t ∈ threshold, Limits.Holds t)
    (comparator : Comparator) (inner : Node) :
    ∃ node, Exploded Tracer.silent inner
      ('!' :: spelling comparator threshold) node := by
  cases threshold with
  | some t =>
      exact ⟨_,
        .compared 0 comparator (Parse.signed_numeral (hthreshold t rfl))⟩
  | none =>
      rw [spelling]
      split
      · exact ⟨_, .plain 0⟩
      · exact ⟨_, .comparator 0 comparator⟩

theorem derivesBack_explode
    {id : NodeId} {tracer : Tracer} {comparator : Comparator}
    {threshold : Option Int}
    (hthreshold : ∀ t ∈ threshold, Limits.Holds t)
    (hback : DerivesBack inner) :
    DerivesBack (explode id tracer comparator threshold inner) := by
  obtain ⟨level, hlevel, hinner⟩ :
      ∃ level : Binding, level.rank < Binding.explode.rank ∧ Derives level _ :=
    exists_derives_enclose hback.level (by decide)
  have hexplosion :
      Derives .explode
        (explode id tracer comparator threshold inner).render := by
    obtain ⟨node, hnode⟩ := exists_exploded_spelling hthreshold comparator inner
    rw [render_explode]
    exact .explode hlevel hinner hnode (List.cons_ne_nil _ _)
  refine derivesBack_of_level hexplosion (by rw [binding]; decide) ?_ rfl ?_
  · exact List.forall_mem_singleton.mpr rfl
  · intro hopen
    cases threshold with
    | some t => cases hopen
    | none =>
        have hcomparator : comparator ≠ .equal := of_decide_eq_true hopen
        refine ⟨level, _, comparator, hlevel, hinner, ?_⟩
        rw [render_explode, spelling, if_neg hcomparator]

/-- A number with a sign behind a comparator is its threshold. -/
theorem stacked_threshold
    {op : Operator} {operand : Nat}
    (hop : op = .add ∨ op = .subtract)
    (hoperand : (operand : Int) ≤ Limits.highest)
    (hback : DerivesBack inner)
    (hopen : inner.endsOpen = true) :
    Stacked 0 (inner.render ++ op.symbol :: numeral operand) := by
  obtain ⟨level, s, c, hlevel, hs, hrender⟩ := hback.opened hopen
  have hsigned : ∃ t, Signed (op.symbol :: numeral operand) t := by
    rcases hop with rfl | rfl
    · exact ⟨_, .plus (Parse.number_numeral hoperand)⟩
    · refine ⟨_, .minus (Parse.decimal_numeral operand) ⟨?_, ?_⟩⟩
      · simp only [Limits.lowest, Limits.highest] at *
        omega
      · simp only [Limits.highest] at *
        omega
  obtain ⟨t, ht⟩ := hsigned
  have hexploded : Exploded Tracer.silent inner
      ('!' :: c.symbol :: op.symbol :: numeral operand)
      (explode 0 Tracer.silent c (some t) inner) := .compared 0 c ht
  have hexplosion :
      Derives .explode (s ++ '!' :: c.symbol :: op.symbol :: numeral operand) :=
    .explode hlevel hs hexploded (List.cons_ne_nil _ _)
  rw [hrender, List.append_assoc]
  exact hexplosion.stacked (by decide)

theorem stacked_arithmetic
    {id : NodeId} {tracer : Tracer} {op : Operator} {operand : Nat}
    (hoperand : (operand : Int) ≤ Limits.highest)
    (hback : DerivesBack inner) :
    Stacked (arithmetic id tracer op operand inner).trailing
      (arithmetic id tracer op operand inner).render := by
  have hnumber : Number (numeral operand) operand :=
    Parse.number_numeral hoperand
  rw [trailing, render]
  by_cases henclosed : inner.binding = .sum ∨ 2 ≤ inner.chainLength
  · have hgroup : Derives .group (Text.parenthesize inner.render) :=
      .enclosed hback.level.sum
    rw [if_pos henclosed, if_pos henclosed]
    exact (hgroup.stacked (by decide)).suffix op hnumber
  · rw [if_neg henclosed, if_neg henclosed]
    rw [not_or] at henclosed
    by_cases hthreshold : inner.endsOpen = true ∧ (op = .add ∨ op = .subtract)
    · rw [if_pos hthreshold]
      exact stacked_threshold hthreshold.2 hoperand hback hthreshold.1
    · rw [if_neg hthreshold]
      exact (hback.stacked henclosed.1).suffix op hnumber

theorem derivesBack_arithmetic
    {id : NodeId} {tracer : Tracer} {op : Operator} {operand : Nat}
    (hoperand : (operand : Int) ≤ Limits.highest)
    (hfew : (arithmetic id tracer op operand inner).trailing ≤ 2)
    (hback : DerivesBack inner) :
    DerivesBack (arithmetic id tracer op operand inner) := by
  have hstacked : Stacked (arithmetic id tracer op operand inner).trailing
      (arithmetic id tracer op operand inner).render :=
    stacked_arithmetic hoperand hback
  have hterm :
      Derives .arithmetic (arithmetic id tracer op operand inner).render :=
    hstacked.derives hfew
  refine ⟨hterm, List.forall_mem_singleton.mpr hterm, fun _ => hstacked, ?_⟩
  rintro ⟨⟩

theorem derives_terms_pool
    {items : List Node}
    (hwellFormed : ∀ item ∈ items, item.WellFormed)
    (hback : ∀ item ∈ items, DerivesBack item)
    (id : NodeId) :
    ∀ t ∈ (pool id items).terms, Derives .arithmetic t.text := by
  refine forall_mem_terms_pool ?_ fun item hitem => (hback item hitem).terms
  intro item hitem d hd count hcount
  obtain ⟨id', rfl⟩ := eq_die_of_mem_die? hd
  obtain ⟨hdie⟩ := hwellFormed _ hitem
  exact (derives_dice hdie hcount).arithmetic (by decide)

/-- A pool of one item is written as the item. -/
theorem derivesBack_pool_singleton
    {id : NodeId} {item : Node}
    (hfilled : item.Filled)
    (hwellFormed : item.WellFormed)
    (hback : DerivesBack item) :
    DerivesBack (pool id [item]) := by
  have hrender : (pool id [item]).render = item.render :=
    render_pool_singleton hfilled.writtenAsTerms.groupFirst_render.ne_nil id
  refine ⟨?_, ?_, ?_, ?_⟩
  · rw [hrender, binding]
    exact hback.level
  · exact derives_terms_pool (List.forall_mem_singleton.mpr hwellFormed)
      (List.forall_mem_singleton.mpr hback) id
  · rw [hrender, binding, trailing]
    exact hback.stacked
  · rw [hrender, endsOpen]
    exact hback.opened

/-- Several items are written as a group of dice, or as a sum. -/
theorem derivesBack_pool
    {id : NodeId} {items : List Node}
    (hfilled : (pool id items).Filled)
    (hlength : 2 ≤ items.length)
    (hwellFormed : ∀ item ∈ items, item.WellFormed)
    (hback : ∀ item ∈ items, DerivesBack item) :
    DerivesBack (pool id items) := by
  have hwritten : WrittenAsTerms (pool id items) := hfilled.writtenAsTerms
  have hterms := derives_terms_pool hwellFormed hback id
  have hplain :
      (pool id items).trailing = 0 ∧ (pool id items).endsOpen = false := by
    match items, hlength with
    | _ :: _ :: _, _ => exact ⟨rfl, rfl⟩
  have hopened {P : Prop} (hopen : (pool id items).endsOpen = true) : P := by
    rw [hplain.2] at hopen
    cases hopen
  obtain hgroup | hsum : (pool id items).binding = .group ∨ _ :=
    binding_pool hlength
  · obtain ⟨d, hdice, hsame, hrender⟩ :=
      exists_render_eq_dice hfilled hlength hgroup
    obtain ⟨item, hitem⟩ :=
      List.exists_mem_of_length_pos (l := items) (by omega)
    obtain ⟨id', rfl⟩ := eq_die_of_mem_die? (hdice item hitem)
    obtain ⟨hd⟩ := hwellFormed _ hitem
    refine derivesBack_of_level ?_ (by rw [hgroup]; decide) ?_ hplain.1 hopened
    · rw [hgroup, hrender]
      exact derives_dice hd (by omega)
    · rw [hsame, hrender]
      exact List.forall_mem_singleton.mpr rfl
  · refine ⟨?_, hterms, fun h => absurd hsum h, hopened⟩
    rw [hsum, hwritten.render_eq]
    refine derives_intercalate
      (mt List.map_eq_nil_iff.mp hwritten.terms_ne_nil) ?_
    exact List.forall_mem_map.mpr fun t ht => (hterms t ht).sum

/-- If no part has more than two suffixes at its end, the node can be
derived. -/
theorem derivesBack
    (hfilled : node.Filled)
    (hwellFormed : node.WellFormed)
    (hfew : ∀ part, Occurs part node → part.trailing ≤ 2) :
    DerivesBack node := by
  induction hfilled with
  | die id d =>
      obtain ⟨hd⟩ := hwellFormed
      exact derivesBack_die hd
  | @pool id items hitems hne ih =>
      have hmembers : ∀ item ∈ items, item.WellFormed :=
        (wellFormed_iff_members _).mp hwellFormed
      have hback : ∀ item ∈ items, DerivesBack item := fun item hitem =>
        ih item hitem (hmembers item hitem)
          fun part hpart => hfew part (hpart.inside hitem)
      match items, hne with
      | [item], _ =>
          rw [List.forall_mem_singleton] at hitems hmembers hback
          exact derivesBack_pool_singleton hitems hmembers hback
      | first :: second :: rest, _ =>
          exact derivesBack_pool (.pool hitems (List.cons_ne_nil _ _))
            (Nat.le_add_left _ _)
            hmembers hback
  | @arithmetic id tracer op operand inner _ ih =>
      obtain ⟨hinner, hoperand, -⟩ := wellFormed_arithmetic_iff.mp hwellFormed
      have hback :=
        ih hinner fun part hpart => hfew part (hpart.inside (.head _))
      exact derivesBack_arithmetic hoperand (hfew _ (.here _)) hback
  | dropKeep _ ih =>
      obtain ⟨hinner, -, -, hthreshold⟩ :=
        wellFormed_dropKeep_iff.mp hwellFormed
      exact derivesBack_dropKeep hthreshold
        (ih hinner fun part hpart => hfew part (hpart.inside (.head _)))
  | explode _ ih =>
      obtain ⟨hinner, hthreshold, -⟩ := wellFormed_explode_iff.mp hwellFormed
      exact derivesBack_explode hthreshold
        (ih hinner fun part hpart => hfew part (hpart.inside (.head _)))

/-- Without pools of a single item, chains of suffixes are broken in time. -/
theorem Plural.trailing_le
    (h : node.Plural) :
    node.trailing ≤ node.chainLength ∧ node.trailing ≤ 2 := by
  induction h with
  | die | dropKeep | explode => exact ⟨le_rfl, Nat.zero_le 2⟩
  | @pool id items _ hlength =>
      match items, hlength with
      | _ :: _ :: _, _ => exact ⟨le_rfl, Nat.zero_le 2⟩
  | @arithmetic id tracer op operand inner _ ih =>
      rw [trailing, chainLength]
      by_cases henclosed : inner.binding = .sum ∨ 2 ≤ inner.chainLength
      · rw [if_pos henclosed]
        omega
      · rw [if_neg henclosed]
        rw [not_or] at henclosed
        split <;> omega

/-- The notation of a node whose pools have several items can be derived on the
level of its binding. -/
theorem derives_render_of_plural
    (hwellFormed : node.WellFormed)
    (hplural : node.Plural) :
    Derives node.binding node.render :=
  (derivesBack hplural.filled hwellFormed fun _ hpart =>
    (hplural.of_occurs hpart).trailing_le.2).level

/-- The notation of a node without empty pools can be derived on the level of
its binding exactly if no part ends with more than two suffixes outside of
parentheses. -/
theorem derives_render_iff
    (h : Constructed node)
    (hfilled : node.Filled) :
    Derives node.binding node.render ↔ ∀ part,
      Occurs part node → part.trailing ≤ 2 := by
  constructor
  · intro hderives part hpart
    by_contra hmany
    have hcrowded := (crowded_of_occurs hpart hfilled
      (Nat.lt_of_not_le hmany) detached_nil).2 2
    rw [List.append_nil, hderives.not_crowded] at hcrowded
    cases hcrowded
  · intro hfew
    exact (derivesBack hfilled h.wellFormed hfew).level

/-- A pool of one item hides two suffixes, and the third one is written right
behind them. -/
theorem third_suffix_behind_single_item_not_derivable :
    ∃ node : Node, Constructed node ∧ node.Filled ∧ node.binding = .arithmetic ∧
      node.render = "D6+1+1+1".toList ∧
      ¬Derives .arithmetic "D6+1+1+1".toList := by
  have hdie : (Build.die (.sided 6)).Returns (die 0 (.sided 6)) :=
    ⟨Memory.empty, rfl⟩
  have hplus (id : NodeId) (inner : Node) :
      (Build.arithmetic (some inner) .add 1
        Tracer.silent).Returns (arithmetic id Tracer.silent .add 1 inner) :=
    ⟨⟨id, Traces.none, #[]⟩, rfl⟩
  have hpool (id : NodeId) (item : Node) :
      (Build.pool ([item].map some)).Returns (pool id [item]) :=
    ⟨⟨id, Traces.none, #[]⟩, rfl⟩
  let once : Node := arithmetic 1 Tracer.silent .add 1 (die 0 (.sided 6))
  let twice : Node := arithmetic 2 Tracer.silent .add 1 once
  let node : Node := arithmetic 4 Tracer.silent .add 1 (pool 3 [twice])
  have hsides : Limits.Holds 6 := by decide
  have hone : Limits.Holds 1 := by decide
  have htwice : Constructed twice :=
    .arithmetic (.arithmetic (.sided hsides rfl hdie) hone (hplus 1 _)) hone
      (hplus 2 once)
  have hnode : Constructed node :=
    .arithmetic (.pool (List.forall_mem_singleton.mpr htwice) (hpool 3 twice))
      hone (hplus 4 _)
  have hfilled : node.Filled :=
    .arithmetic (.pool (List.forall_mem_singleton.mpr
      (.arithmetic (.arithmetic (.die 0 (.sided 6))))) (List.cons_ne_nil _ _))
  have hmany : ¬node.trailing ≤ 2 := by decide
  refine ⟨node, hnode, hfilled, rfl, by decide, fun hderives => ?_⟩
  exact hmany ((derives_render_iff hnode hfilled).mp hderives node (.here node))

end Node
end DiceNotation
