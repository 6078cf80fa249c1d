import DiceNotation.Proofs.Notation.Shapes
import DiceNotation.Proofs.Notation.Stages

/-!
# Reading terms

A written term is read as said, stage by stage: a node in parentheses or a group
of dice as a group, a group with or without a selection, and a term in front of
suffixes.  How a modifier is read follows from how its inner node is read.
-/

namespace DiceNotation

namespace Parse

open Building Node

section Levels

variable (tracer : Tracer) (whole : Text)

/-- The term is read as a group. -/
def ReadsAsGroup (t : Term) : Prop :=
  ∀ ⦃depth : Nat⦄ ⦃rest : Text⦄, NumeralEnds rest →
    Accepts (groupAt tracer whole depth (t.text ++ rest)) (t.Readable depth)
      (ReadAs t.node rest)

/-- The term is read as a group with or without a selection. -/
def ReadsAsSelection (t : Term) : Prop :=
  ∀ ⦃depth : Nat⦄ ⦃rest : Text⦄, NumeralEnds rest → SelectionEnds rest →
    Accepts (selectedAt tracer whole depth (t.text ++ rest)) (t.Readable depth)
      (ReadAs t.node rest)

/-- The term is read in front of whatever can be read behind it, where only so
many of the suffixes that a term may have are used. -/
def ReadsBefore (t : Term) (used : Nat) : Prop :=
  ∀ ⦃depth : Nat⦄ ⦃rest rest' : Text⦄ ⦃C : Prop⦄ ⦃R : Node → Prop⦄,
    TermEnds rest → (t.node.isOpen = true → SignedEnds rest) →
    (∀ ⦃allowed : Nat⦄ ⦃n : Node⦄,
      mostSuffixes ≤ allowed + used → n.bare = t.node →
        Reads (suffixed tracer whole allowed n rest) C R rest') →
    Reads (termAt tracer whole depth (t.text ++ rest))
      (t.Readable depth ∧ C) R rest'

/-- The node is read as a sum. -/
def ReadsAsSum (node : Node) : Prop :=
  ∀ ⦃depth : Nat⦄ ⦃rest : Text⦄, (rest = [] ∨ ∃ more, rest = ')' :: more) →
    Reads (expression tracer whole depth (node.render ++ rest))
      (node.isLegible = true ∧ node.render.nesting ≤ depth ∧
        node.reread.WellFormed)
      (fun n => n.bare = node.reread) rest

end Levels

variable {tracer : Tracer} {whole : Text} {node inner : Node}

/-! ## Groups -/

theorem readsAsGroup_dice
    {d : Die} {count : Nat}
    (hd : d.WellFormed)
    (hcount : 1 ≤ count) :
    ReadsAsGroup tracer whole (Term.dice count d) := by
  intro depth rest hrest
  rw [groupAt_eq_dice, Term.readable_dice hd]
  · exact accepts_dice hd hcount hrest
  · intro more h
    rw [Term.dice, Summand.counted, render_die_eq] at h
    dsimp only at h
    split at h
    · rw [List.append_assoc] at h
      exact ne_cons_of_digits (isDigit_numeral _)
        (Numeral.numeral_ne_nil _) (by decide) h
    · cases h

theorem readsAsGroup_of_group
    (hplural : node.Plural)
    (hwellFormed : node.WellFormed)
    (hgroup : node.binding = .group) :
    ReadsAsGroup tracer whole (node.written .select) := by
  obtain ⟨d, count, hcount, hterms, hd⟩ := exists_terms_eq_dice hplural hgroup
  have hwritten : node.written .select = Term.dice count d := by
    refine written_eq_of_terms hplural hterms ?_
    rw [hgroup]
    decide
  rw [hwritten]
  exact readsAsGroup_dice (hd hwellFormed) hcount

theorem readsAsGroup_of_sum
    (hsum : ReadsAsSum tracer whole node)
    (hgroup : node.binding ≠ .group) :
    ReadsAsGroup tracer whole (node.written .select) := by
  intro depth rest hrest
  have hrank : Binding.select.rank ≤ node.binding.rank := by
    cases hbinding : node.binding with
    | group => exact absurd hbinding hgroup
    | _ => decide
  have hwritten :
      (node.written .select).text = Text.parenthesize node.render := by
    rw [written, enclose, encloseAt, if_pos hrank]
  have hreadable : (node.written .select).Readable depth ↔
      node.isLegible = true ∧ node.render.nesting + 1 ≤ depth ∧
      node.reread.WellFormed := by
    rw [Term.Readable, hwritten, (spelled_render node).nesting_parenthesize]
    rfl
  rw [hreadable, hwritten]
  cases depth with
  | zero => exact accepts_throw fun h => absurd h.2.1 (by omega)
  | succ depth =>
      rw [groupAt, group_of_parenthesize]
      have hread :
          Reads (expression tracer whole depth (node.render ++ ')' :: rest)) _ _
            (')' :: rest) := hsum (Or.inr ⟨rest, rfl⟩)
      refine AcceptsUnless.congr (C := _ ∧ True) (hread.accepts_bind ?_ ?_) ?_
        fun _ _ h => h
      · intro _ n hn
        dsimp only
        rw [expect_self, scanned_ok, pure_bind]
        exact accepts_pure trivial ⟨hn, rfl⟩
      · rintro n r ⟨more, rfl⟩
        exact accepts_throw id
      · rw [and_true, Nat.add_le_add_iff_right]

/-! ## Selections -/

theorem readsAsSelection_of_group
    {t : Term}
    (hgroup : ReadsAsGroup tracer whole t) :
    ReadsAsSelection tracer whole t := by
  intro depth rest hnumeral hselection
  rw [selectedAt]
  refine AcceptsUnless.congr (C := _ ∧ True) ((hgroup hnumeral).bind ?_)
    (and_true _).to_iff fun _ _ h => h
  rintro hreadable ⟨n, r⟩ ⟨hn, rfl⟩
  dsimp only
  rw [selected_none hselection]
  exact accepts_pure trivial ⟨hn, rfl⟩

theorem members_ne_nil_of_bare
    {n m : Node}
    (h : n.bare = m) :
    (m.members ≠ [] ↔ n.members ≠ []) ∧
    m.members.length = n.members.length := by
  rw [← h, members_bare, List.length_map, Ne, List.map_eq_nil_iff]
  exact ⟨Iff.rfl, rfl⟩

theorem readsAsSelection_dropKeep
    {id : NodeId} {tracer' : Tracer} {selection : Selection} {threshold : Nat}
    (hinner : ReadsAsGroup tracer whole (inner.written .select))
    (hthreshold : (threshold : Int) ≤ Limits.highest) :
    ReadsAsSelection tracer whole
      ((dropKeep id tracer' selection threshold inner).written .explode) := by
  intro depth rest hnumeral _
  have htext :
      ((dropKeep id tracer' selection threshold inner).written .explode).text =
        (inner.written .select).text ++
          (selection.code ++ numeral threshold) := by
    rw [written, enclose, binding, encloseAt, if_neg (by decide), render,
      List.append_assoc]
    rfl
  have hplain : ∀ c ∈ selection.code ++ numeral threshold, Text.IsPlain c := by
    rw [List.forall_mem_append]
    exact ⟨isPlain_code _, isPlain_numeral _⟩
  have hcode : NumeralEnds (selection.code ++ numeral threshold ++ rest) := by
    cases selection <;> exact numeralEnds_cons (by decide) _
  have hreadable :
      ((dropKeep id tracer' selection threshold inner).written
          .explode).Readable depth ↔
        (inner.written .select).Readable depth ∧ inner.reread.members ≠ [] ∧
          threshold ≤ inner.reread.members.length := by
    rw [Term.Readable, htext,
      (spelled_written inner .select).nesting_append_of_plain hplain]
    change inner.isLegible = true ∧ _ ∧
      (dropKeep 0 Tracer.silent selection threshold inner.reread).WellFormed ↔ _
    rw [wellFormed_dropKeep_iff]
    change _ ↔ (inner.isLegible = true ∧ _ ∧ inner.reread.WellFormed) ∧ _
    tauto
  rw [hreadable, htext, List.append_assoc, selectedAt]
  apply (hinner hcode).bind
  rintro - ⟨n, r⟩ ⟨hn, rfl⟩
  have hbare : n.bare = inner.reread := hn
  obtain ⟨hne, hlength⟩ := members_ne_nil_of_bare hbare
  have hselected : Accepts
      (selected tracer n (selection.code ++ numeral threshold ++ rest)) _ _ :=
    accepts_selected hthreshold hnumeral
  rw [hbare] at hselected
  exact hselected.congr (by rw [hne, hlength]) fun _ _ h => h

/-! ## Explosions -/

theorem readsBefore_of_selection
    {t : Term}
    (hselection : ReadsAsSelection tracer whole t) :
    ReadsBefore tracer whole t 0 := by
  intro depth rest rest' C R hrest _ hsuffixes
  have hmark : ∀ more, rest ≠ '!' :: more := by
    rintro more rfl
    exact absurd (hrest '!' rfl) (by decide)
  rw [termAt_eq]
  refine reads_bind_of_accepts
    (hselection hrest.numeralEnds hrest.selectionEnds) ?_
  rintro - ⟨n, r⟩ ⟨hn, rfl⟩
  dsimp only
  rw [exploded_none hmark, pure_bind]
  exact hsuffixes le_rfl hn

/-- In front of an exclamation mark, an explosion is read next. -/
theorem reads_in_front_of_mark
    {depth : Nat} {more rest' : Text} {C : Prop} {R : Node → Prop}
    (hinner : ReadsAsSelection tracer whole (inner.written .explode))
    (hexploding : ∀ {n : Node}, n.bare = inner.reread →
      Reads (exploded tracer n ('!' :: more) >>= fun p =>
        suffixed tracer whole mostSuffixes p.1 p.2) C R rest') :
    Reads (termAt tracer whole depth
      ((inner.written .explode).text ++ '!' :: more))
      ((inner.written .explode).Readable depth ∧ C) R rest' := by
  have hmark : NumeralEnds ('!' :: more) := numeralEnds_cons (by decide) more
  have hselection : SelectionEnds ('!' :: more) := by
    rintro c ⟨⟩
    decide
  rw [termAt_eq]
  refine reads_bind_of_accepts (hinner hmark hselection) ?_
  rintro - ⟨n, r⟩ ⟨hn, rfl⟩
  exact hexploding hn

/-- Whatever comparator and threshold are found behind the exclamation mark,
reading goes on behind them. -/
theorem reads_exploding
    {depth : Nat} {more more' rest rest' : Text} {found : Option Comparator}
    {comparator : Comparator} {threshold : Option Int}
    {C : Prop} {R : Node → Prop}
    (hinner : ReadsAsSelection tracer whole (inner.written .explode))
    (hcomparator : Parse.comparator more = (found, more'))
    (hthreshold : integer found.isSome more' = .ok (threshold, rest))
    (hfound : found.getD .equal = comparator)
    (hsuffixes : ∀ {n : Node},
      n.bare = explode 0 Tracer.silent comparator threshold inner.reread →
        Reads (suffixed tracer whole mostSuffixes n rest) C R rest') :
    Reads (termAt tracer whole depth
      ((inner.written .explode).text ++ '!' :: more))
      ((inner.written .explode).Readable depth ∧
        Explodable comparator threshold inner.reread ∧ C) R rest' := by
  refine reads_in_front_of_mark hinner ?_
  intro n hn
  have hexploded : Accepts (exploded tracer n ('!' :: more)) _ _ :=
    accepts_exploded hcomparator hthreshold
  rw [← explodable_bare, hn, hfound] at hexploded
  refine reads_bind_of_accepts hexploded ?_
  rintro - ⟨n', r⟩ ⟨hn', rfl⟩
  exact hsuffixes hn'

/-- A threshold that is no value is refused. -/
theorem reads_exploding_refused
    {depth : Nat} {more more' rest : Text} {found : Option Comparator}
    {fault : SyntaxFault} {R : Node → Prop}
    (hinner : ReadsAsSelection tracer whole (inner.written .explode))
    (hcomparator : Parse.comparator more = (found, more'))
    (hthreshold : integer found.isSome more' = .error fault) :
    Reads (termAt tracer whole depth
      ((inner.written .explode).text ++ '!' :: more)) False R rest := by
  refine ReadsUnless.congr (C := _ ∧ False) (reads_in_front_of_mark hinner ?_)
    (and_false _).to_iff fun _ _ h => h
  intro n hn
  rw [exploded, hcomparator]
  dsimp only
  rw [hthreshold, scanned_error]
  exact reads_refuse fault id

theorem not_explodable_less
    {node : Node} :
    ¬Explodable .less none node := by
  intro h
  apply h.not_endless
  rw [Endless, Comparator.isEndless, decide_eq_true_eq, limit]
  exact le_rfl

/-- A term that ends with a comparator and perhaps a threshold can be read if
and only if the inner node can, and the explosion is sure to stop. -/
theorem readable_exploding
    {depth : Nat} {text : Text} {comparator : Comparator}
    {threshold : Option Int}
    (htext : ∀ c ∈ text, Text.IsPlain c)
    (hthreshold : ∀ t ∈ threshold, Limits.Holds t) :
    (⟨(inner.written .explode).text ++ text,
        explode 0 Tracer.silent comparator threshold inner.reread,
        inner.isLegible⟩ : Term).Readable depth ↔
      (inner.written .explode).Readable depth ∧
        Explodable comparator threshold inner.reread := by
  rw [Term.Readable,
    (spelled_written inner .explode).nesting_append_of_plain htext,
    wellFormed_explode_iff]
  change _ ↔ (inner.isLegible = true ∧ _ ∧ inner.reread.WellFormed) ∧ _
  tauto

/-- The comparator and the threshold are read back, unless a comparator without
threshold has a signed number behind it. -/
theorem exists_comparator_of_spelling
    {comparator : Comparator} {threshold : Option Int} {rest : Text}
    (hthreshold : ∀ t ∈ threshold, Limits.Holds t)
    (hless : ¬(comparator = .less ∧ threshold = none))
    (hrest : TermEnds rest)
    (hopen : comparator = .greater → threshold = none → SignedEnds rest) :
    ∃ found more,
      Parse.comparator (spelling comparator threshold ++ rest) = (found, more) ∧
      integer found.isSome more = .ok (threshold, rest) ∧
      found.getD .equal = comparator := by
  cases threshold with
  | some t =>
      exact ⟨some comparator, _, comparator_of_symbol comparator _,
        integer_of_signed (signed_numeral (hthreshold t rfl)) hrest.numeralEnds,
        rfl⟩
  | none =>
      cases comparator with
      | equal =>
          exact ⟨none, rest, comparator_none hrest,
            integer_unsigned_none hrest.numeralEnds, rfl⟩
      | greater =>
          exact ⟨some .greater, rest, rfl,
            integer_signed_none (hopen rfl rfl), rfl⟩
      | less => exact absurd ⟨rfl, rfl⟩ hless

theorem readsBefore_explode
    {id : NodeId} {tracer' : Tracer} {comparator : Comparator}
    {threshold : Option Int}
    (hinner : ReadsAsSelection tracer whole (inner.written .explode))
    (hwellFormed : (explode id tracer' comparator threshold inner).WellFormed) :
    ReadsBefore tracer whole
      ((explode id tracer' comparator threshold inner).written .sum)
      0 := by
  intro depth rest rest' C R hrest hopen hsuffixes
  obtain ⟨-, hthreshold, hexplodable⟩ := wellFormed_explode_iff.mp hwellFormed
  have hless : ¬(comparator = .less ∧ threshold = none) := by
    rintro ⟨rfl, rfl⟩
    exact not_explodable_less hexplodable
  have hsigned :
      comparator = .greater → threshold = none → SignedEnds rest := by
    rintro rfl rfl
    exact hopen rfl
  obtain ⟨found, more, hcomparator, hinteger, hfound⟩ :=
    exists_comparator_of_spelling hthreshold hless hrest hsigned
  have hreadable :
      ((explode id tracer' comparator threshold inner).written .sum).Readable
          depth ↔
        (inner.written .explode).Readable depth ∧
          Explodable comparator threshold inner.reread := by
    rw [Term.Readable, written_explode_text]
    exact readable_exploding isPlain_spelling hthreshold
  rw [hreadable, written_explode_text, List.append_assoc,
    List.cons_append, and_assoc]
  refine reads_exploding hinner hcomparator hinteger hfound ?_
  intro n hn
  exact hsuffixes le_rfl hn

/-! ## Suffixes -/

/-- A written suffix that is read as one leaves room for one suffix less. -/
theorem readsBefore_suffix
    {t : Term} {used operand : Nat} {op : Operator}
    (ht : ReadsBefore tracer whole t used)
    (hused : used < mostSuffixes)
    (hopen : t.node.isOpen = true → op ≠ .add ∧ op ≠ .subtract)
    (hoperand : (operand : Int) ≤ Limits.highest)
    (hdivide : ¬(op = .divide ∧ operand = 0))
    (hspelled : Text.Spelled t.text) :
    ReadsBefore tracer whole
      ⟨t.text ++ op.symbol :: numeral operand,
        arithmetic 0 Tracer.silent op operand t.node,
        t.legible⟩ (used + 1) := by
  intro depth rest rest' C R hrest _ hsuffixes
  have hplain : ∀ c ∈ op.symbol :: numeral operand, Text.IsPlain c := by
    rw [List.forall_mem_cons]
    exact ⟨isPlain_symbol_operator op, isPlain_numeral _⟩
  have hreadable : (⟨t.text ++ op.symbol :: numeral operand,
      arithmetic 0 Tracer.silent op operand t.node, t.legible⟩ : Term).Readable
      depth ↔
        t.Readable depth := by
    rw [Term.Readable, Term.Readable, hspelled.nesting_append_of_plain hplain,
      wellFormed_arithmetic_iff]
    tauto
  have hsigned : t.node.isOpen = true →
      SignedEnds (op.symbol :: (numeral operand ++ rest)) :=
    fun h => signedEnds_symbol (hopen h) _
  rw [hreadable, List.append_assoc, List.cons_append]
  refine ht (termEnds_symbol op _) hsigned ?_
  intro allowed n hallowed hn
  cases allowed with
  | zero => omega
  | succ allowed =>
      rw [suffixed_of_number (number_numeral hoperand) allowed hrest]
      have harithmetic :
          0 ≤ (operand : Int) ∧ ¬(op = .divide ∧ (operand : Int) = 0) :=
        ⟨by omega, fun h => hdivide ⟨h.1, by omega⟩⟩
      refine (reads_bind_of_accepts (Build.accepts_arithmetic n op
        operand tracer) ?_).congr (and_iff_right harithmetic) fun _ _ h => h
      rintro - result ⟨id, rfl⟩
      refine hsuffixes (by omega) ?_
      rw [bare, hn, Int.toNat_natCast]

/-- Behind a comparator, a written plus or minus is the sign of a threshold. -/
theorem readsBefore_threshold
    {operand : Nat} {op : Operator} {t : Int}
    (hinner : ReadsAsSelection tracer whole (inner.written .explode))
    (hop : op = .add ∧ t = operand ∨ op = .subtract ∧ t = -operand)
    (hoperand : (operand : Int) ≤ Limits.highest) :
    ReadsBefore tracer whole
      ⟨(inner.written .explode).text ++
        '!' :: '>' :: op.symbol :: numeral operand,
        explode 0 Tracer.silent .greater (some t) inner.reread,
        inner.isLegible⟩ 1 := by
  intro depth rest rest' C R hrest _ hsuffixes
  have hplain :
      ∀ c ∈ '!' :: '>' :: op.symbol :: numeral operand, Text.IsPlain c := by
    rw [List.forall_mem_cons, List.forall_mem_cons, List.forall_mem_cons]
    exact ⟨by decide, by decide, isPlain_symbol_operator op,
      isPlain_numeral _⟩
  have hholds : Limits.Holds t := by
    simp only [Limits.Holds, Limits.lowest, Limits.highest] at *
    omega
  have hinteger : integer true (op.symbol :: (numeral operand ++ rest)) =
      .ok (some t, rest) := by
    rcases hop with ⟨rfl, rfl⟩ | ⟨rfl, rfl⟩
    · exact integer_of_signed (.plus (number_numeral hoperand))
        hrest.numeralEnds
    · exact integer_of_signed (.minus (decimal_numeral operand) hholds)
        hrest.numeralEnds
  have hthreshold : ∀ n ∈ some t, Limits.Holds n := by
    rintro n ⟨⟩
    exact hholds
  rw [readable_exploding hplain hthreshold, List.append_assoc, and_assoc]
  have hcomparator :
      Parse.comparator ('>' :: op.symbol :: (numeral operand ++ rest)) =
        (some .greater, op.symbol :: (numeral operand ++ rest)) := rfl
  exact reads_exploding hinner hcomparator hinteger rfl
    fun hn => hsuffixes (by decide) hn

/-- The number of suffixes at the end of the written node. -/
def suffixes (node : Node) : Nat :=
  if node.chainLength ≤ mostSuffixes then node.chainLength else 1

section Arithmetic

variable {id : NodeId} {tracer' : Tracer} {op : Operator} {operand : Nat}

/-- Behind parentheses, the suffix is the first of its term. -/
theorem readsBefore_arithmetic_enclosed
    (hplural : inner.Plural)
    (hinner : ReadsAsSelection tracer whole (inner.written .explode))
    (henclosed : inner.binding = .sum ∨ 2 ≤ inner.chainLength)
    (hoperand : (operand : Int) ≤ Limits.highest)
    (hdivide : ¬(op = .divide ∧ operand = 0)) :
    ReadsBefore tracer whole
      ((arithmetic id tracer' op operand inner).written .sum)
      (suffixes (arithmetic id tracer' op operand inner)) := by
  -- Only sums and chains of suffixes are enclosed, and neither ends with a
  -- comparator.
  have hclosed :
      inner.isOpen = false ∧ Binding.explode.rank ≤ inner.binding.rank ∧
      suffixes (arithmetic id tracer' op operand inner) = 1 := by
    cases inner with
    | arithmetic id tracer op operand inner =>
        refine ⟨rfl, by rw [binding]; decide, ?_⟩
        rcases henclosed with hsum | hchain
        · cases hsum
        · rw [suffixes, if_neg]
          rw [mostSuffixes]
          simp only [chainLength] at *
          omega
    | pool id items =>
        rcases henclosed with hsum | hchain
        · rw [hsum]
          exact ⟨rfl, by decide, rfl⟩
        · cases hchain
    | _ =>
        rcases henclosed with hsum | hchain
        · cases hsum
        · cases hchain
  obtain ⟨hopen, hrank, hsuffixes⟩ := hclosed
  have hreread : inner.reread.isOpen = true → op ≠ .add ∧ op ≠ .subtract := by
    rw [isOpen_reread hplural, hopen]
    rintro ⟨⟩
  have hwritten : (arithmetic id tracer' op operand inner).written .sum =
      ⟨(inner.written .explode).text ++ op.symbol :: numeral operand,
        arithmetic 0 Tracer.silent op operand inner.reread,
        inner.isLegible⟩ := by
    refine Term.ext ?_ (withSuffix_eq_arithmetic hreread operand) rfl
    rw [written_arithmetic_text, if_pos henclosed,
      written_eq_parenthesize hrank]
  rw [hwritten, hsuffixes]
  exact readsBefore_suffix (readsBefore_of_selection hinner) (by decide) hreread
    hoperand hdivide (spelled_written inner .explode)

/-- Without parentheses, the suffix follows those of the inner node. -/
theorem readsBefore_arithmetic_open
    (hplural : inner.Plural)
    (hbefore : ReadsBefore tracer whole (inner.written .sum) (suffixes inner))
    (hsum : inner.binding ≠ .sum)
    (hchain : inner.chainLength < 2)
    (hsuffix : inner.isOpen = true → op ≠ .add ∧ op ≠ .subtract)
    (hoperand : (operand : Int) ≤ Limits.highest)
    (hdivide : ¬(op = .divide ∧ operand = 0)) :
    ReadsBefore tracer whole
      ((arithmetic id tracer' op operand inner).written .sum)
      (suffixes (arithmetic id tracer' op operand inner)) := by
  have hinner : suffixes inner = inner.chainLength := by
    rw [suffixes, if_pos]
    rw [mostSuffixes]
    omega
  have hsuffixes : suffixes (arithmetic id tracer' op operand inner) =
      suffixes inner + 1 := by
    rw [hinner, suffixes, if_pos]
    · rfl
    · rw [mostSuffixes, chainLength]
      omega
  have hrank : ¬Binding.sum.rank ≤ inner.binding.rank := by
    cases hbinding : inner.binding with
    | sum => exact absurd hbinding hsum
    | _ => decide
  have henclosed : ¬(inner.binding = .sum ∨ 2 ≤ inner.chainLength) := by
    rintro (h | h)
    · exact hsum h
    · omega
  have hreread : inner.reread.isOpen = true → op ≠ .add ∧ op ≠ .subtract := by
    rw [isOpen_reread hplural]
    exact hsuffix
  have hwritten : (arithmetic id tracer' op operand inner).written .sum =
      ⟨(inner.written .sum).text ++ op.symbol :: numeral operand,
        arithmetic 0 Tracer.silent op operand inner.reread,
        inner.isLegible⟩ := by
    refine Term.ext ?_ (withSuffix_eq_arithmetic hreread operand) rfl
    rw [written_arithmetic_text, if_neg henclosed, written_eq_render hrank]
  rw [hwritten, hsuffixes]
  refine readsBefore_suffix hbefore ?_ hreread hoperand hdivide
    (spelled_written inner .sum)
  rw [hinner, mostSuffixes]
  exact hchain

/-- Behind a comparator without threshold, a plus or minus makes a threshold. -/
theorem readsBefore_arithmetic_threshold
    {id' : NodeId} {tracer'' : Tracer}
    (hinner : ReadsAsSelection tracer whole (inner.written .explode))
    (hop : op = .add ∨ op = .subtract)
    (hoperand : (operand : Int) ≤ Limits.highest) :
    ReadsBefore tracer whole
      ((arithmetic id tracer' op operand
        (explode id' tracer'' .greater none inner)).written .sum) 1 := by
  have htext : ((arithmetic id tracer' op operand
      (explode id' tracer'' .greater none inner)).written .sum).text =
        (inner.written .explode).text ++
          '!' :: '>' :: op.symbol :: numeral operand := by
    have hopen :
        ((explode id' tracer'' .greater none inner).written .sum).text =
          (explode id' tracer'' .greater none inner).render :=
      written_eq_render (by rw [binding]; decide)
    rw [written_arithmetic_text, if_neg (by simp [binding, chainLength]),
      ← hopen, written_explode_text, List.append_assoc]
    rfl
  rcases hop with rfl | rfl
  · have hwritten : (arithmetic id tracer' .add operand
        (explode id' tracer'' .greater none inner)).written .sum =
          ⟨_, explode 0 Tracer.silent .greater (some operand) inner.reread,
            inner.isLegible⟩ := Term.ext htext rfl rfl
    rw [hwritten]
    exact readsBefore_threshold hinner (Or.inl ⟨rfl, rfl⟩) hoperand
  · have hwritten : (arithmetic id tracer' .subtract operand
        (explode id' tracer'' .greater none inner)).written .sum =
          ⟨_, explode 0 Tracer.silent .greater (some (-operand)) inner.reread,
            inner.isLegible⟩ := Term.ext htext rfl rfl
    rw [hwritten]
    exact readsBefore_threshold hinner (Or.inr ⟨rfl, rfl⟩) hoperand

end Arithmetic

end Parse
end DiceNotation
