import DiceNotation.Proofs.Parse.Checked

/-!
# How reading fails

Whatever the text, reading it returns a node or fails in one of four ways: with
a fault of the text, a division by zero, a selection of more than there is, or
an explosion that may not end.  All other checks of constructors and codes are
passed.  The readers never leave the text: what is left of it is always an end
of it, and what a fault quotes is a part of it.
-/

namespace DiceNotation

/-- The parts of the text that the explanation of a fault quotes. -/
def SyntaxFault.quotes : SyntaxFault → List Text
  | empty => []
  | unexpected rest whole => [rest, whole]
  | expected _ rest whole => [rest, whole]
  | outOfRange numeral => [numeral]
  | nestedTooDeep => []
  | countTooSmall count => [count]
  | countTooLarge count => [count]
  | missingDie group whole => [group, whole]
  | missingFace rest whole => [rest, whole]
  | tooManyFaces => []
  | tooFewSides group => [group]
  | unknownSelection code => [code]
  | missingOperand rest whole => [rest, whole]
  | tooManyOperators suffix => [suffix]

/-- The documented reasons for which a text is not read. -/
inductive Documented (whole : Text) : Error → Prop where
  | fault {fault : SyntaxFault} :
      (∀ quote ∈ fault.quotes, quote <:+: whole) →
        Documented whole (.badSyntax fault)
  | divisionByZero : Documented whole .divisionByZero
  | tooManyChosen {threshold size : Nat} (pool : Text) :
      size < threshold → Documented whole (.tooManyChosen threshold size pool)
  | endless {e : Error} : e.kind = .endless → Documented whole e

namespace Building

variable {α β : Type} {E : Error → Prop}

/-- After a first step, only what it can return has to be considered. -/
theorem RefusedFor.bind_returns
    {b : Building α} {f : α → Building β}
    (hb : b.RefusedFor E)
    (hf : ∀ a, b.Returns a → (f a).RefusedFor E) :
    (b >>= f).RefusedFor E := by
  intro m
  have hm := hb m
  rw [outcome_bind]
  unfold outcome at hm
  rcases hrun : (ExceptT.run b).run m with ⟨e | a, after⟩
  · rw [hrun] at hm
    exact hm
  · have ha : b.outcome m = .ok a := by rw [outcome, hrun]
    exact hf a ⟨m, ha⟩ after

end Building

namespace Parse

open Building Grammar Node

/-! ## Scanning -/

/-- If it is a fault, it quotes parts of the text only. -/
def FaultsQuote {α : Type} (whole : Text)
    (result : Except SyntaxFault α) : Prop :=
  ∀ fault, result = .error fault → ∀ quote ∈ fault.quotes, quote <:+: whole

section Scanning

variable {α β : Type} {whole s rest : Text}

theorem faultsQuote_ok (a : α) : FaultsQuote whole (.ok a) := by
  intro fault h
  cases h

theorem faultsQuote_error
    {fault : SyntaxFault}
    (h : ∀ quote ∈ fault.quotes, quote <:+: whole) :
    FaultsQuote whole (.error fault : Except SyntaxFault α) := by
  intro _ hfault
  cases hfault
  exact h

theorem FaultsQuote.bind
    {x : Except SyntaxFault α} {f : α → Except SyntaxFault β}
    (hx : FaultsQuote whole x)
    (hf : ∀ a, x = .ok a → FaultsQuote whole (f a)) :
    FaultsQuote whole (x >>= f) := by
  cases x with
  | ok a => exact hf a rfl
  | error fault => exact faultsQuote_error (hx fault rfl)

/-- Most faults quote one part of the text. -/
theorem quotes_part
    (hs : s <:+: whole) :
    ∀ quote ∈ [s], quote <:+: whole := by
  rw [List.forall_mem_singleton]
  exact hs

/-- A rest of the text and the text itself are often quoted together. -/
theorem quotes_rest
    (hs : s <:+ whole) :
    ∀ quote ∈ [s, whole], quote <:+: whole := by
  rw [List.forall_mem_cons, List.forall_mem_singleton]
  exact ⟨hs.isInfix, List.infix_rfl⟩

theorem consumed_isInfix
    (hs : s <:+ whole)
    (rest : Text) :
    consumed s rest <:+: whole :=
  (List.take_prefix _ s).isInfix.trans hs.isInfix

theorem suffix_of_append
    {word : Text}
    (h : s = word ++ rest) :
    rest <:+ s :=
  ⟨word, h.symm⟩

theorem suffix_of_integer
    {signed : Bool} {n? : Option Int}
    (h : integer signed s = .ok (n?, rest)) :
    rest <:+ s := by
  cases n? with
  | none =>
      have heq := eq_of_integer_none h
      exact heq ▸ List.suffix_rfl
  | some n =>
      obtain ⟨-, word, hleading⟩ := integer_eq_some_iff.mp h
      exact suffix_of_append hleading.append_eq.symm

theorem faultsQuote_integer
    (signed : Bool)
    (hs : s <:+ whole) :
    FaultsQuote whole (integer signed s) := by
  intro fault hfault
  obtain ⟨word, n, rest, hleading, -, rfl⟩ :=
    exists_leadingInteger_of_error hfault
  have hfront : word <+: s := ⟨rest, hleading.append_eq⟩
  exact quotes_part (hfront.isInfix.trans hs.isInfix)

theorem faultsQuote_face
    (hs : s <:+ whole) :
    FaultsQuote whole (face whole s) := by
  apply (faultsQuote_integer true hs).bind
  intro p hp
  obtain ⟨n?, more⟩ := p
  cases n? with
  | none =>
      exact faultsQuote_error (quotes_rest ((suffix_of_integer hp).trans hs))
  | some n => exact faultsQuote_ok _

theorem faultsQuote_faces
    (allowed : Nat)
    (hs : s <:+ whole) :
    FaultsQuote whole (faces whole allowed s) := by
  induction allowed generalizing s with
  | zero =>
      apply (faultsQuote_face hs).bind
      intro p hp
      apply faultsQuote_error
      intro quote hquote
      cases hquote
  | succ allowed ih =>
      apply (faultsQuote_face hs).bind
      intro p hp
      obtain ⟨n, more⟩ := p
      obtain ⟨w, rfl, -⟩ := exists_signed_of_face hp
      dsimp only
      split
      · rename_i more
        have hmore : more <:+ whole :=
          ((List.suffix_cons ',' more).trans (List.suffix_append w _)).trans hs
        apply (ih hmore).bind
        intro q hq
        exact faultsQuote_ok _
      · exact faultsQuote_ok _

theorem faultsQuote_expect
    (c : Char)
    (hs : s <:+ whole) :
    FaultsQuote whole (expect c whole s) := by
  cases s with
  | nil => exact faultsQuote_error (quotes_rest hs)
  | cons d s =>
      rw [expect]
      split
      · exact faultsQuote_ok _
      · exact faultsQuote_error (quotes_rest hs)

theorem faultsQuote_sides
    {group : Text}
    (hgroup : group <:+ whole)
    (hs : s <:+ whole) :
    FaultsQuote whole (sides whole group s) := by
  have htooFew (rest : Text) :
      FaultsQuote whole (.error (.tooFewSides (consumed group rest)) :
        Except SyntaxFault (Die × Text)) :=
    faultsQuote_error (quotes_part (consumed_isInfix hgroup rest))
  unfold sides
  split
  · exact faultsQuote_ok _
  · exact faultsQuote_ok _
  · rename_i more
    have hmore : more <:+ whole := (List.suffix_cons '[' more).trans hs
    apply (faultsQuote_faces Die.mostFaces hmore).bind
    intro p hp
    obtain ⟨ns, rest⟩ := p
    obtain ⟨w, rfl, -⟩ := exists_faces_of_faces hp
    apply (faultsQuote_expect ']'
      ((List.suffix_append w rest).trans hmore)).bind
    intro q hq
    exact faultsQuote_ok _
  · apply (faultsQuote_integer false hs).bind
    intro p hp
    obtain ⟨n?, rest⟩ := p
    cases n? with
    | none => exact htooFew rest
    | some n =>
        dsimp only
        split
        · exact htooFew rest
        · exact faultsQuote_ok _

theorem faultsQuote_count
    (hs : s <:+ whole) :
    FaultsQuote whole (count s) := by
  apply (faultsQuote_integer false hs).bind
  intro p hp
  obtain ⟨n?, rest⟩ := p
  have hcount := quotes_part (consumed_isInfix hs rest)
  dsimp only
  split
  · exact faultsQuote_error hcount
  · split
    · exact faultsQuote_error hcount
    · exact faultsQuote_ok _

theorem faultsQuote_countedDie
    (hs : s <:+ whole) :
    FaultsQuote whole (countedDie whole s) := by
  apply (faultsQuote_count hs).bind
  intro p hp
  obtain ⟨n, rest⟩ := p
  obtain ⟨w, hw, -⟩ := exists_count_of_count hp
  dsimp only
  split
  · rename_i more
    have hmore : more <:+ whole :=
      ((List.suffix_cons 'D' more).trans (suffix_of_append hw)).trans hs
    apply (faultsQuote_sides hs hmore).bind
    intro q hq
    exact faultsQuote_ok _
  · exact faultsQuote_error (quotes_rest hs)

theorem faultsQuote_selection
    (hs : s <:+ whole) :
    FaultsQuote whole (selection s) := by
  unfold selection
  split
  · exact faultsQuote_ok _
  · split
    · split
      · exact faultsQuote_ok _
      · apply faultsQuote_error
        exact quotes_part ((List.take_prefix _ _).isInfix.trans hs.isInfix)
    · exact faultsQuote_ok _

theorem faultsQuote_suffix
    (hs : s <:+ whole) :
    FaultsQuote whole (suffix whole s) := by
  unfold suffix
  split
  · exact faultsQuote_ok _
  · rename_i op more hoperator
    rw [exists_symbol_of_operator hoperator] at hs
    have hmore : more <:+ whole := (List.suffix_cons op.symbol more).trans hs
    apply (faultsQuote_integer false hmore).bind
    intro p hp
    obtain ⟨n?, rest⟩ := p
    cases n? with
    | none =>
        exact faultsQuote_error
          (quotes_rest ((suffix_of_integer hp).trans hmore))
    | some n => exact faultsQuote_ok _

theorem refusedFor_refuse
    {fault : SyntaxFault}
    (h : ∀ quote ∈ fault.quotes, quote <:+: whole) :
    (refuse fault : Building α).RefusedFor (Documented whole) :=
  refusedFor_throw (.fault h)

theorem refusedFor_scanned
    {result : Except SyntaxFault α}
    (h : FaultsQuote whole result) :
    (scanned result).RefusedFor (Documented whole) := by
  cases result with
  | ok a => exact refusedFor_pure a
  | error fault => exact refusedFor_refuse (h fault rfl)

end Scanning

/-! ## Reading nodes -/

/-- Every end of the text is read, or refused for a documented reason. -/
def FailsAsDocumented {α : Type} (whole : Text) (reader : Reader α) : Prop :=
  ∀ {s : Text}, s <:+ whole → (reader s).RefusedFor (Documented whole)

variable {tracer : Tracer} {whole : Text}

theorem failsAsDocumented_dice : FailsAsDocumented whole (dice whole) := by
  intro s hs
  apply (refusedFor_scanned (faultsQuote_countedDie hs)).bind_returns
  intro p hp
  obtain ⟨⟨n, d⟩, rest⟩ := p
  obtain ⟨v, w, -, hcount, -⟩ := exists_sides_of_countedDie (returns_scanned hp)
  apply (Build.refusedFor_die d).bind
  intro node
  split
  · exact refusedFor_pure _
  · have hpool : (Build.repeated node n).RefusedFor (Documented whole) := by
      apply (Build.refusedFor_repeated node n).mono
      intro e he
      cases hcount with
      | omitted => rcases he with ⟨hfew, -⟩ | ⟨hmany, -⟩ <;> contradiction
      | number _ hone hmost => rcases he with ⟨hfew, -⟩ | ⟨hmany, -⟩ <;> omega
    exact hpool.bind fun _ => refusedFor_pure _

theorem failsAsDocumented_group
    {inner : Option (Reader Node)}
    (hinner : ∀ expression ∈ inner, FailsAsDocumented whole expression)
    (hword : ∀ expression ∈ inner, ReadsWord expression fun _ _ => True) :
    FailsAsDocumented whole (group whole inner) := by
  intro s hs
  by_cases hparen : ∃ more, s = '(' :: more
  · obtain ⟨more, rfl⟩ := hparen
    have hmore : more <:+ whole := (List.suffix_cons '(' more).trans hs
    cases inner with
    | none =>
        apply refusedFor_refuse
        intro quote hquote
        cases hquote
    | some expression =>
        apply (hinner expression rfl hmore).bind_returns
        intro p hp
        obtain ⟨node, rest⟩ := p
        obtain ⟨w, hw, -⟩ := hword expression rfl hp
        have hrest : rest <:+ whole := (suffix_of_append hw).trans hmore
        exact (refusedFor_scanned (faultsQuote_expect ')' hrest)).bind fun _ =>
          refusedFor_pure _
  · have hdice : ∀ more, s ≠ '(' :: more := fun more h => hparen ⟨more, h⟩
    rw [group_eq_dice whole hdice]
    exact failsAsDocumented_dice hs

/-- The thresholds of a selection are never negative, and a node that is read
has members to choose from. -/
theorem failsAsDocumented_selected
    {node : Node}
    (hnode : node.members ≠ []) :
    FailsAsDocumented whole (selected tracer node) := by
  intro s hs
  apply (refusedFor_scanned (faultsQuote_selection hs)).bind_returns
  intro p hp
  rcases exists_code_of_selection (returns_scanned hp) with hnone |
    ⟨selection, hsome, hcode⟩
  · obtain ⟨found, rest⟩ := p
    cases hnone.1
    exact refusedFor_pure _
  · obtain ⟨found, rest⟩ := p
    cases hsome
    have hrest : rest <:+ whole := (suffix_of_append hcode).trans hs
    apply (refusedFor_scanned (faultsQuote_integer false hrest)).bind_returns
    intro q hq
    obtain ⟨threshold, rest'⟩ := q
    have hthreshold : 0 ≤ threshold.getD 1 := by
      cases threshold with
      | none => exact Int.one_nonneg
      | some t =>
          obtain ⟨-, k, -, -, rfl⟩ :=
            exists_number_of_integer (returns_scanned hq)
          exact Int.natCast_nonneg k
    have hbuilt : (Build.dropKeep (some node) selection
        (threshold.getD 1) tracer).RefusedFor (Documented whole) := by
      apply (Build.refusedFor_dropKeep _ _ _ _).mono
      intro e he
      rcases he with ⟨hempty, -⟩ | ⟨hnegative, -⟩ | ⟨hmany, rfl⟩
      · exact absurd hempty hnode
      · omega
      · exact .tooManyChosen _ (by omega)
    exact hbuilt.bind fun _ => refusedFor_pure _

theorem failsAsDocumented_exploded
    {node : Node}
    (hnode : node.members ≠ []) :
    FailsAsDocumented whole (exploded tracer node) := by
  intro s hs
  by_cases hmark : ∃ more, s = '!' :: more
  · obtain ⟨more, rfl⟩ := hmark
    rcases hcomparator : comparator more with ⟨found, rest⟩
    have hrest : rest <:+ whole := by
      have hmore : more <:+ whole := (List.suffix_cons '!' more).trans hs
      rcases exists_symbol_of_comparator hcomparator with ⟨-, rfl⟩ | ⟨c, -, rfl⟩
      · exact hmore
      · exact (List.suffix_cons c.symbol rest).trans hmore
    rw [exploded, hcomparator]
    apply (refusedFor_scanned (faultsQuote_integer found.isSome hrest)).bind
    intro p
    have hbuilt :
        (Build.explode (some node) (found.getD .equal) p.1 tracer).RefusedFor
          (Documented whole) := by
      apply (Build.refusedFor_explode _ _ _ _).mono
      intro e he
      rcases he with ⟨hempty, -⟩ | hendless
      · exact absurd hempty hnode
      · exact .endless hendless
    exact hbuilt.bind fun _ => refusedFor_pure _
  · rw [exploded_none fun more h => hmark ⟨more, h⟩]
    exact refusedFor_pure _

/-- The operands of suffixes are never negative, but they may be zero. -/
theorem failsAsDocumented_suffixed
    (allowed : Nat)
    (node : Node) :
    FailsAsDocumented whole (suffixed tracer whole allowed node) := by
  intro s hs
  induction allowed generalizing node s with
  | zero =>
      rw [suffixed]
      apply (refusedFor_scanned (faultsQuote_suffix hs)).bind
      intro p
      obtain ⟨found, rest⟩ := p
      cases found with
      | none => exact refusedFor_pure _
      | some found =>
          exact refusedFor_refuse (quotes_part hs.isInfix)
  | succ allowed ih =>
      rw [suffixed]
      apply (refusedFor_scanned (faultsQuote_suffix hs)).bind_returns
      intro p hp
      obtain ⟨found, rest⟩ := p
      rcases exists_number_of_suffix (returns_scanned hp) with
        ⟨rfl, -⟩ | ⟨op, w, k, rfl, hword, -⟩
      · exact refusedFor_pure _
      · have hrest : rest <:+ whole := by
          have hmore : w ++ rest <:+ s := by
            rw [hword]
            exact List.suffix_cons _ _
          exact ((List.suffix_append w rest).trans hmore).trans hs
        have hbuilt : (Build.arithmetic (some node) op k tracer).RefusedFor
            (Documented whole) := by
          apply (Build.refusedFor_arithmetic _ _ _ _).mono
          intro e he
          rcases he with ⟨hnegative, -⟩ | ⟨-, -, rfl⟩
          · omega
          · exact .divisionByZero
        exact hbuilt.bind fun node => ih node hrest

/-! ## Reading expressions -/

theorem members_ne_nil_of_plural
    {node : Node}
    (h : Plural node) :
    node.members ≠ [] := by
  cases h with
  | pool _ hlength =>
      intro hnil
      rw [members] at hnil
      rw [hnil] at hlength
      cases hlength
  | _ => exact List.cons_ne_nil _ _

theorem failsAsDocumented_term
    {group : Reader Node}
    (hgroup : FailsAsDocumented whole group)
    (hparsed : ReadsParsed group)
    (hword : ReadsWord group fun _ _ => True) :
    FailsAsDocumented whole (term tracer whole group) := by
  intro s hs
  apply (hgroup hs).bind_returns
  intro p hp
  obtain ⟨first, more⟩ := p
  obtain ⟨t, rfl, -⟩ := hword hp
  have hmore : more <:+ whole := (List.suffix_append t more).trans hs
  have hfirst := hparsed hp
  apply (failsAsDocumented_selected
    (members_ne_nil_of_plural hfirst.plural) hmore).bind_returns
  intro q hq
  obtain ⟨second, more'⟩ := q
  obtain ⟨u, rfl, -⟩ := exists_selected_of_selected hq
  have hmore' : more' <:+ whole := (List.suffix_append u more').trans hmore
  have hsecond := parsed_of_selected hfirst hq
  apply (failsAsDocumented_exploded (members_ne_nil_of_plural hsecond.plural)
    hmore').bind_returns
  intro r hr
  obtain ⟨third, more''⟩ := r
  obtain ⟨v, rfl, -⟩ := exists_exploded_of_exploded hr
  have hmore'' : more'' <:+ whole := (List.suffix_append v more'').trans hmore'
  exact failsAsDocumented_suffixed mostSuffixes third hmore''

theorem failsAsDocumented_terms
    {term : Reader Node}
    (hterm : FailsAsDocumented whole term)
    (hword : ReadsWord term fun _ _ => True)
    (limit : Nat) :
    FailsAsDocumented whole (terms term limit) := by
  intro s hs
  induction limit generalizing s with
  | zero => exact refusedFor_pure _
  | succ limit ih =>
      rw [terms]
      apply (hterm hs).bind_returns
      intro p hp
      obtain ⟨first, more⟩ := p
      obtain ⟨w, rfl, -⟩ := hword hp
      have hmore : more <:+ whole := (List.suffix_append w more).trans hs
      dsimp only
      split
      · rename_i more'
        split
        · have hmore' : more' <:+ whole :=
            (List.suffix_cons '+' more').trans hmore
          exact (ih hmore').bind fun _ => refusedFor_pure _
        · exact refusedFor_pure _
      · exact refusedFor_pure _

theorem failsAsDocumented_sum
    {term : Reader Node}
    (hterm : FailsAsDocumented whole term)
    (hword : ReadsWord term fun _ _ => True) :
    FailsAsDocumented whole (sum term) := by
  intro s hs
  apply (failsAsDocumented_terms hterm hword (s.length + 1) hs).bind
  intro p
  exact (accepts_pooled p.1 p.2).congr Iff.rfl fun _ _ _ => trivial

theorem ReadsWord.weaken
    {α : Type} {reader : Reader α} {P : Text → α → Prop}
    (h : ReadsWord reader P) :
    ReadsWord reader fun _ _ => True := by
  intro s rest a ha
  obtain ⟨w, hw, -⟩ := h ha
  exact ⟨w, hw, trivial⟩

theorem failsAsDocumented_expression (depth : Nat) :
    FailsAsDocumented whole (expression tracer whole depth) := by
  -- What an inner expression reads is known from the grammar.
  have hword (depth : Nat) :
      ReadsWord (expression tracer whole depth) fun _ _ => True :=
    ReadsWord.weaken (exists_expression_of_expression depth)
  have hsum {depth : Nat}
      (hgroup : FailsAsDocumented whole (groupAt tracer whole depth))
      (hparsed : ReadsParsed (groupAt tracer whole depth))
      (hgroups : ReadsWord (groupAt tracer whole depth)
        (Group mostCopies tracer depth)) :
      FailsAsDocumented whole (sum (termAt tracer whole depth)) :=
    failsAsDocumented_sum
      (failsAsDocumented_term hgroup hparsed (ReadsWord.weaken hgroups))
      (ReadsWord.weaken (exists_term_of_term hgroups))
  induction depth with
  | zero =>
      rw [expression_eq]
      apply hsum
      · apply failsAsDocumented_group
        · intro expression hexpression
          cases hexpression
        · intro expression hexpression
          cases hexpression
      · apply parsed_of_group
        intro expression hexpression
        cases hexpression
      · exact exists_group_of_innermost
  | succ depth ih =>
      rw [expression_eq]
      apply hsum
      · apply failsAsDocumented_group
        · intro expression hexpression
          cases hexpression
          exact ih
        · intro expression hexpression
          cases hexpression
          exact hword depth
      · apply parsed_of_group
        intro expression hexpression
        cases hexpression
        exact parsed_of_expression tracer whole depth
      · exact exists_group_of_enclosed (exists_expression_of_expression depth)

theorem refusedFor_wholeText (tracer : Tracer) (whole : Text) :
    (wholeText tracer whole).RefusedFor (Documented whole) := by
  unfold wholeText
  split
  · apply refusedFor_refuse
    intro quote hquote
    cases hquote
  · apply (failsAsDocumented_expression deepestNesting
      List.suffix_rfl).bind_returns
    intro p hp
    obtain ⟨node, rest⟩ := p
    obtain ⟨w, hw, -⟩ := exists_expression_of_expression _ hp
    dsimp only
    split
    · exact refusedFor_pure _
    · exact refusedFor_refuse (quotes_rest (suffix_of_append hw))

end Parse

/-- Reading fails in the documented ways only, and in all of them, even if every
check of the constructors and of the codes is made: a text is read, or it is
refused for a fault that quotes parts of the text only, for a division by zero,
for a selection of more than there is to choose from, or for an explosion that
may not end. -/
theorem parse_refused_as_documented (tracer : Tracer) :
    (∀ text, parseChecked tracer text = parse tracer text) ∧
      (∀ text m, (∃ node, (parse tracer text).outcome m = .ok node) ∨
        ∃ e, (parse tracer text).outcome m = .error e ∧
          Documented text.normalize e) ∧
      ∀ kind ∈ [ErrorKind.text, .operand, .choice, .endless], ∃ text m e,
        (parse tracer text).outcome m = .error e ∧ e.kind = kind := by
  refine ⟨parseChecked_eq tracer, ?_, ?_⟩
  · intro text m
    have hm := Parse.refusedFor_wholeText tracer text.normalize m
    cases houtcome : (parse tracer text).outcome m with
    | ok node => exact Or.inl ⟨node, rfl⟩
    | error e =>
        rw [parse] at houtcome
        rw [houtcome] at hm
        exact Or.inr ⟨e, rfl, hm trivial⟩
  · simp only [List.forall_mem_cons, List.not_mem_nil, false_implies,
      implies_true, and_true]
    refine ⟨⟨"D1".toList, Memory.empty, ?_⟩, ⟨"D6/0".toList, Memory.empty, ?_⟩,
      ⟨"D6KH2".toList, Memory.empty, ?_⟩, ⟨"D6!>0".toList, Memory.empty, ?_⟩⟩
    · exact ⟨.badSyntax (.tooFewSides "D1".toList), by cbv, rfl⟩
    · exact ⟨.divisionByZero, by cbv, rfl⟩
    · exact ⟨.tooManyChosen 2 1 "D6".toList, by cbv, rfl⟩
    · exact ⟨.endlessExplosion "D6!>0".toList .greater 0, by cbv, rfl⟩

end DiceNotation
