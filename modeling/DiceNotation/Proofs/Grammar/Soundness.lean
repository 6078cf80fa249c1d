import DiceNotation.Proofs.Grammar.Rules
import DiceNotation.Proofs.Parse.Constructed
import DiceNotation.Proofs.Parse.Integers
import DiceNotation.Proofs.Parse.Reads

/-!
# What is read is grammatical

Whatever a reader takes off the front of a text is a word of the grammar, and
the node that it returns is the one the word stands for.  The readers are
followed from numbers upwards.
-/

namespace DiceNotation
namespace Parse

open Building Grammar

/-! ## Numbers -/

/-- Without an integer, nothing is read. -/
theorem eq_of_integer_none
    {signed : Bool} {s rest : Text}
    (h : integer signed s = .ok (none, rest)) :
    rest = s :=
  (integer_eq_none_iff.mp h).2

/-- An integer without a sign is a number. -/
theorem exists_number_of_integer
    {s rest : Text} {n : Int}
    (h : integer false s = .ok (some n, rest)) :
    ∃ w, ∃ k : Nat, s = w ++ rest ∧ Number w k ∧ n = k := by
  obtain ⟨hholds, w, rfl, hspells, -⟩ := integer_eq_some_iff.mp h
  cases hspells with
  | plain hdigits =>
      exact ⟨w, _, rfl, ⟨digits_iff_decimal.mp hdigits, hholds⟩, rfl⟩
  | plus hsigned _ | minus hsigned _ => cases hsigned

/-- Where signs are allowed, an integer is a number with or without a sign. -/
theorem exists_signed_of_integer
    {s rest : Text} {n : Int}
    (h : integer true s = .ok (some n, rest)) :
    ∃ w, s = w ++ rest ∧ Signed w n := by
  obtain ⟨hholds, w, rfl, hspells, -⟩ := integer_eq_some_iff.mp h
  refine ⟨w, rfl, ?_⟩
  cases hspells with
  | plain hdigits => exact .plain ⟨digits_iff_decimal.mp hdigits, hholds⟩
  | plus _ hdigits => exact .plus ⟨digits_iff_decimal.mp hdigits, hholds⟩
  | minus _ hdigits => exact .minus (digits_iff_decimal.mp hdigits) hholds

/-! ## Dice -/

theorem exists_signed_of_face
    {whole s rest : Text} {n : Int}
    (h : face whole s = .ok (n, rest)) :
    ∃ w, s = w ++ rest ∧ Signed w n := by
  obtain ⟨⟨n?, more⟩, hinteger, hface⟩ := ok_of_bind h
  cases n? with
  | none => cases hface
  | some n' =>
      cases hface
      exact exists_signed_of_integer hinteger

theorem exists_faces_of_faces
    {whole : Text} {allowed : Nat} {s rest : Text} {ns : List Int}
    (h : faces whole allowed s = .ok (ns, rest)) :
    ∃ w, s = w ++ rest ∧ Faces w ns := by
  induction allowed generalizing s ns with
  | zero =>
      obtain ⟨_, _, hfaces⟩ := ok_of_bind h
      cases hfaces
  | succ allowed ih =>
      rw [faces] at h
      obtain ⟨⟨n, more⟩, hface, hrest⟩ := ok_of_bind h
      obtain ⟨w, rfl, hw⟩ := exists_signed_of_face hface
      dsimp only at hrest
      split at hrest
      · obtain ⟨⟨others, end'⟩, hothers, hns⟩ := ok_of_bind hrest
        cases hns
        obtain ⟨v, rfl, hv⟩ := ih hothers
        exact ⟨w ++ ',' :: v, by simp, .next hw hv⟩
      · cases hrest
        exact ⟨w, rfl, .last hw⟩

theorem eq_cons_of_expect
    {c : Char} {whole s rest : Text} {u : Unit}
    (h : expect c whole s = .ok (u, rest)) :
    s = c :: rest := by
  cases s with
  | nil => cases h
  | cons d s =>
      rw [expect] at h
      split at h
      · rename_i hd
        cases h
        rw [hd]
      · cases h

theorem exists_sides_of_sides
    {whole group s rest : Text} {d : Die}
    (h : sides whole group s = .ok (d, rest)) :
    ∃ w, s = w ++ rest ∧ Sides w d := by
  unfold sides at h
  split at h
  · cases h
    exact ⟨['F'], rfl, .fudge⟩
  · cases h
    exact ⟨['%'], rfl, .hundred⟩
  · obtain ⟨⟨ns, more⟩, hfaces, hrest⟩ := ok_of_bind h
    obtain ⟨⟨_, end'⟩, hexpect, hd⟩ := ok_of_bind hrest
    cases hd
    obtain ⟨-, hlength, -⟩ := holds_of_faces hfaces
    obtain ⟨w, rfl, hw⟩ := exists_faces_of_faces hfaces
    cases eq_cons_of_expect hexpect
    exact ⟨'[' :: (w ++ [']']), by simp, .listed hw hlength⟩
  · obtain ⟨⟨n?, more⟩, hinteger, hd⟩ := ok_of_bind h
    cases n? with
    | none => cases hd
    | some n =>
        dsimp only at hd
        split at hd
        · cases hd
        · rename_i hmany
          cases hd
          obtain ⟨w, k, hw, hnumber, rfl⟩ := exists_number_of_integer hinteger
          exact ⟨w, hw, .number hnumber (by omega)⟩

theorem exists_count_of_count
    {s rest : Text} {n : Nat}
    (h : count s = .ok (n, rest)) :
    ∃ w, s = w ++ rest ∧ Count mostCopies w n := by
  obtain ⟨⟨n?, more⟩, hinteger, h⟩ := ok_of_bind h
  dsimp only at h
  split at h
  · cases h
  · rename_i hfew
    split at h
    · cases h
    · rename_i hmost
      cases h
      cases n? with
      | none =>
          cases eq_of_integer_none hinteger
          exact ⟨[], rfl, .omitted⟩
      | some n =>
          obtain ⟨w, k, hw, hnumber, rfl⟩ := exists_number_of_integer hinteger
          rw [Option.getD_some] at hfew hmost ⊢
          exact ⟨w, hw, .number hnumber (by omega) (by omega)⟩

theorem exists_sides_of_countedDie
    {whole s rest : Text} {n : Nat} {d : Die}
    (h : countedDie whole s = .ok ((n, d), rest)) :
    ∃ v w, s = v ++ 'D' :: (w ++ rest) ∧ Count mostCopies v n ∧ Sides w d := by
  obtain ⟨⟨n', more⟩, hcount, h⟩ := ok_of_bind h
  dsimp only at h
  split at h
  · obtain ⟨⟨d', end'⟩, hsides, h⟩ := ok_of_bind h
    cases h
    obtain ⟨v, rfl, hv⟩ := exists_count_of_count hcount
    obtain ⟨w, rfl, hw⟩ := exists_sides_of_sides hsides
    exact ⟨v, w, rfl, hv, hw⟩
  · cases h

/-! ## Groups -/

/-- What the reader takes off a text is a word, and what it returns is what the
word stands for. -/
def ReadsWord {α : Type} (reader : Reader α) (P : Text → α → Prop) : Prop :=
  ∀ {s rest : Text} {a : α},
    (reader s).Returns (a, rest) → ∃ w, s = w ++ rest ∧ P w a

variable {tracer : Tracer} {whole : Text}

theorem exists_group_of_dice
    {depth : Nat} :
    ReadsWord (dice whole) (Group mostCopies tracer depth) := by
  intro s rest node h
  obtain ⟨⟨⟨n, d⟩, more⟩, hcounted, hbuilt⟩ := h.bind
  obtain ⟨v, w, rfl, hv, hw⟩ :=
    exists_sides_of_countedDie (returns_scanned hcounted)
  obtain ⟨first, hfirst, hbuilt⟩ := hbuilt.bind
  obtain ⟨-, id, rfl⟩ := (Build.accepts_die d).of_returns hfirst
  have hcopies : rest = more ∧ Copies d n node := by
    split at hbuilt
    · rename_i hone
      cases Returns.of_pure hbuilt
      rw [hone]
      exact ⟨rfl, .single id⟩
    · rename_i hmany
      obtain ⟨pool, hpool, hpure⟩ := hbuilt.bind
      cases Returns.of_pure hpure
      obtain ⟨-, id', ids, hlength, rfl⟩ :=
        (Build.accepts_repeated _ _).of_returns hpool
      rw [Int.toNat_natCast] at hlength
      rw [← hlength] at hmany ⊢
      exact ⟨rfl, .several id' hmany⟩
  obtain ⟨rfl, hnode⟩ := hcopies
  exact ⟨v ++ 'D' :: w, by simp, .dice hv hw hnode⟩

theorem exists_group_of_enclosed
    {depth : Nat}
    (h : ReadsWord (expression tracer whole depth)
      (Expression mostCopies tracer depth)) :
    ReadsWord (groupAt tracer whole (depth + 1))
      (Group mostCopies tracer (depth + 1)) := by
  intro s rest node hnode
  rw [groupAt] at hnode
  unfold group at hnode
  split at hnode
  · obtain ⟨⟨node', more⟩, hexpression, hrest⟩ := hnode.bind
    obtain ⟨⟨_, end'⟩, hexpect, hpure⟩ := hrest.bind
    cases Returns.of_pure hpure
    cases eq_cons_of_expect (returns_scanned hexpect)
    obtain ⟨w, rfl, hw⟩ := h hexpression
    exact ⟨'(' :: (w ++ [')']), by simp, .enclosed hw⟩
  · exact exists_group_of_dice hnode

theorem exists_group_of_innermost :
    ReadsWord (groupAt tracer whole 0) (Group mostCopies tracer 0) := by
  intro s rest node hnode
  rw [groupAt] at hnode
  unfold group at hnode
  split at hnode
  · exact absurd hnode not_returns_throw
  · exact exists_group_of_dice hnode

/-! ## Modifiers -/

theorem eq_code_of_ofCode?
    {s : Text} {selection : Selection}
    (h : Selection.ofCode? s = some selection) :
    s = selection.code := by
  unfold Selection.ofCode? at h
  split at h <;> cases h <;> rfl

theorem exists_code_of_selection
    {s rest : Text} {selection? : Option Selection}
    (h : selection s = .ok (selection?, rest)) :
    selection? = none ∧ rest = s ∨
      ∃ selection, selection? = some selection ∧
        s = selection.code ++ rest := by
  unfold selection at h
  split at h
  · cases h
    exact Or.inl ⟨rfl, rfl⟩
  · split at h
    · split at h
      · rename_i found hfound
        cases h
        refine Or.inr ⟨found, rfl, ?_⟩
        rw [← eq_code_of_ofCode? hfound, List.take_append_drop]
      · cases h
    · cases h
      exact Or.inl ⟨rfl, rfl⟩

theorem exists_selected_of_selected
    {inner : Node} :
    ReadsWord (selected tracer inner) (Selected tracer inner) := by
  intro s rest node h
  obtain ⟨⟨selection?, more⟩, hselection, hrest⟩ := h.bind
  rcases exists_code_of_selection (returns_scanned hselection) with
    ⟨rfl, rfl⟩ | ⟨selection, rfl, rfl⟩
  · cases Returns.of_pure hrest
    exact ⟨[], rfl, .none⟩
  · obtain ⟨⟨threshold, more'⟩, hinteger, hbuilt⟩ := hrest.bind
    obtain ⟨node', hnode, hpure⟩ := hbuilt.bind
    cases Returns.of_pure hpure
    obtain ⟨-, id, rfl⟩ := (Build.accepts_dropKeep _ _ _ _).of_returns hnode
    cases threshold with
    | none =>
        cases eq_of_integer_none (returns_scanned hinteger)
        exact ⟨selection.code, rfl, .single id selection⟩
    | some t =>
        obtain ⟨w, k, rfl, hnumber, rfl⟩ :=
          exists_number_of_integer (returns_scanned hinteger)
        exact ⟨selection.code ++ w, by simp, .threshold id selection hnumber⟩

theorem exists_symbol_of_comparator
    {s rest : Text} {comparator? : Option Comparator}
    (h : comparator s = (comparator?, rest)) :
    comparator? = none ∧ rest = s ∨
      ∃ c, comparator? = some c ∧ s = c.symbol :: rest := by
  unfold comparator at h
  split at h
  · cases h
    exact Or.inl ⟨rfl, rfl⟩
  · split at h
    · rename_i found hfound
      cases h
      refine Or.inr ⟨found, rfl, ?_⟩
      unfold Comparator.ofSymbol? at hfound
      split at hfound <;> cases hfound <;> rfl
    · cases h
      exact Or.inl ⟨rfl, rfl⟩

theorem exists_exploded_of_exploded
    {inner : Node} :
    ReadsWord (exploded tracer inner) (Exploded tracer inner) := by
  intro s rest node h
  unfold exploded at h
  split at h
  · rename_i more
    rcases hcomparator : comparator more with ⟨comparator?, more'⟩
    rw [hcomparator] at h
    obtain ⟨⟨threshold, end'⟩, hinteger, hbuilt⟩ := h.bind
    obtain ⟨node', hnode, hpure⟩ := hbuilt.bind
    cases Returns.of_pure hpure
    obtain ⟨-, id, rfl⟩ := (Build.accepts_explode _ _ _ _).of_returns hnode
    have hread := returns_scanned hinteger
    rcases exists_symbol_of_comparator hcomparator with ⟨rfl, rfl⟩ |
      ⟨c, rfl, rfl⟩
    · cases threshold with
      | none =>
          cases eq_of_integer_none hread
          exact ⟨['!'], rfl, .plain id⟩
      | some t =>
          obtain ⟨w, k, rfl, hnumber, rfl⟩ := exists_number_of_integer hread
          exact ⟨'!' :: w, rfl, .threshold id hnumber⟩
    · cases threshold with
      | none =>
          cases eq_of_integer_none hread
          exact ⟨['!', c.symbol], rfl, .comparator id c⟩
      | some t =>
          obtain ⟨w, rfl, hsigned⟩ := exists_signed_of_integer hread
          exact ⟨'!' :: c.symbol :: w, rfl, .compared id c hsigned⟩
  · cases Returns.of_pure h
    exact ⟨[], rfl, .none⟩

theorem exists_symbol_of_operator
    {s rest : Text} {op : Operator}
    (h : operator s = some (op, rest)) :
    s = op.symbol :: rest := by
  unfold operator at h
  split at h
  · cases h
  · split at h
    · cases h
    · obtain ⟨found, hfound, heq⟩ := Option.map_eq_some_iff.mp h
      cases heq
      unfold Operator.ofSymbol? at hfound
      split at hfound <;> cases hfound <;> rfl

theorem exists_number_of_suffix
    {s rest : Text} {found : Option (Operator × Int)}
    (h : suffix whole s = .ok (found, rest)) :
    found = none ∧ rest = s ∨
      ∃ op w, ∃ k : Nat, found = some (op, (k : Int)) ∧
        s = op.symbol :: (w ++ rest) ∧
        Number w k := by
  unfold suffix at h
  split at h
  · cases h
    exact Or.inl ⟨rfl, rfl⟩
  · rename_i op more hoperator
    obtain ⟨⟨n?, more'⟩, hinteger, hfound⟩ := ok_of_bind h
    cases n? with
    | none => cases hfound
    | some n =>
        cases hfound
        obtain ⟨w, k, rfl, hnumber, rfl⟩ := exists_number_of_integer hinteger
        exact Or.inr ⟨op, w, k, rfl,
          exists_symbol_of_operator hoperator, hnumber⟩

theorem exists_suffixed_of_suffixed
    {allowed : Nat} {inner : Node} :
    ReadsWord (suffixed tracer whole allowed inner)
      (Suffixed tracer allowed inner) := by
  induction allowed generalizing inner with
  | zero =>
      intro s rest node h
      rw [suffixed] at h
      obtain ⟨⟨found, more⟩, hsuffix, hrest⟩ := h.bind
      rcases exists_number_of_suffix (returns_scanned hsuffix) with
        ⟨rfl, rfl⟩ | ⟨op, w, k, rfl, -⟩
      · cases Returns.of_pure hrest
        exact ⟨[], rfl, .none 0 inner⟩
      · exact absurd hrest not_returns_throw
  | succ allowed ih =>
      intro s rest node h
      rw [suffixed] at h
      obtain ⟨⟨found, more⟩, hsuffix, hrest⟩ := h.bind
      rcases exists_number_of_suffix (returns_scanned hsuffix) with
        ⟨rfl, rfl⟩ | ⟨op, w, k, rfl, rfl, hnumber⟩
      · cases Returns.of_pure hrest
        exact ⟨[], rfl, .none (allowed + 1) inner⟩
      · obtain ⟨node', hnode, hmore⟩ := hrest.bind
        obtain ⟨-, id, rfl⟩ :=
          (Build.accepts_arithmetic _ _ _ _).of_returns hnode
        obtain ⟨v, rfl, hv⟩ := ih hmore
        exact ⟨op.symbol :: (w ++ v), by simp, .suffix id op hnumber hv⟩

/-! ## Expressions -/

theorem exists_term_of_term
    {depth : Nat}
    (hgroup :
      ReadsWord (groupAt tracer whole depth) (Group mostCopies tracer depth)) :
    ReadsWord (termAt tracer whole depth)
      (Grammar.Term mostCopies tracer depth) := by
  intro s rest node h
  obtain ⟨⟨first, more⟩, hfirst, hsecond⟩ := h.bind
  obtain ⟨⟨second, more'⟩, hselected, hthird⟩ := hsecond.bind
  obtain ⟨⟨third, more''⟩, hexploded, hsuffixed⟩ := hthird.bind
  obtain ⟨t, rfl, ht⟩ := hgroup hfirst
  obtain ⟨u, rfl, hu⟩ := exists_selected_of_selected hselected
  obtain ⟨v, rfl, hv⟩ := exists_exploded_of_exploded hexploded
  obtain ⟨w, rfl, hw⟩ := exists_suffixed_of_suffixed hsuffixed
  exact ⟨t ++ (u ++ (v ++ w)), by simp, .mk ht hu hv hw⟩

/-- There are fewer terms than characters, so the limit is not reached. -/
theorem exists_terms_of_terms
    {depth limit : Nat} {s rest : Text} {nodes : List Node}
    (hterm : ReadsWord (termAt tracer whole depth)
      (Grammar.Term mostCopies tracer depth))
    (hlimit : s.length < limit)
    (h : (terms (termAt tracer whole depth) limit s).Returns (nodes, rest)) :
    ∃ w, s = w ++ rest ∧ Terms mostCopies tracer depth w nodes := by
  induction limit generalizing s nodes with
  | zero => cases hlimit
  | succ limit ih =>
      obtain ⟨⟨first, more⟩, hfirst, hothers⟩ := h.bind
      obtain ⟨t, rfl, ht⟩ := hterm hfirst
      have hlast (hnodes :
          (pure ([first], more) : Building (List Node × Text)).Returns
            (nodes, rest)) :
          ∃ w, t ++ more = w ++ rest ∧
            Terms mostCopies tracer depth w nodes := by
        cases Returns.of_pure hnodes
        exact ⟨t, rfl, .last ht⟩
      dsimp only at hothers
      split at hothers
      · rename_i more'
        split at hothers
        · obtain ⟨⟨others, rest'⟩, hrest, hnodes⟩ := hothers.bind
          cases Returns.of_pure hnodes
          have hshorter : more'.length < limit := by
            rw [List.length_append, List.length_cons] at hlimit
            omega
          obtain ⟨u, rfl, hu⟩ := ih hshorter hrest
          exact ⟨t ++ '+' :: u, by simp, .next ht hu⟩
        · exact hlast hothers
      · exact hlast hothers

theorem exists_expression_of_sum
    {depth : Nat}
    (hterm : ReadsWord (termAt tracer whole depth)
      (Grammar.Term mostCopies tracer depth)) :
    ReadsWord (sum (termAt tracer whole depth))
      (Expression mostCopies tracer depth) := by
  intro s rest node h
  obtain ⟨⟨nodes, more⟩, hnodes, hbuilt⟩ := h.bind
  obtain ⟨w, rfl, hw⟩ := exists_terms_of_terms hterm (Nat.lt_succ_self _) hnodes
  obtain ⟨-, hnode, rfl⟩ :=
    (accepts_pooled (E := fun _ => False) _ _).of_returns hbuilt
  refine ⟨w, rfl, ?_⟩
  rcases hnode with rfl | ⟨hlength, id, rfl⟩
  · exact .term hw
  · exact .sum id hw hlength

/-- What is read as an expression is one. -/
theorem exists_expression_of_expression (depth : Nat) :
    ReadsWord (expression tracer whole depth)
      (Expression mostCopies tracer depth) := by
  induction depth with
  | zero =>
      exact exists_expression_of_sum
        (exists_term_of_term exists_group_of_innermost)
  | succ depth ih =>
      exact exists_expression_of_sum
        (exists_term_of_term (exists_group_of_enclosed ih))

theorem grammatical_of_wholeText
    {node : Node}
    (h : (wholeText tracer whole).Returns node) :
    Expression mostCopies tracer deepestNesting whole node := by
  obtain ⟨w, hw, hword⟩ :=
    exists_expression_of_expression _ (expression_of_wholeText h).2
  rw [List.append_nil] at hw
  rwa [hw]

end Parse

/-- Every text that is read is a dice expression, in upper case and without
blanks, and the node that is returned is the one that it stands for.  Counts go
up to 1000, parentheses nest at most 64 deep, and all modifiers have the tracer
of the reader. -/
theorem grammatical_of_parse
    {tracer : Tracer} {text : Text} {node : Node}
    (h : (parse tracer text).Returns node) :
    Grammar.Expression 1000 tracer 64 text.normalize node :=
  Parse.grammatical_of_wholeText h

/-- A sum of a selection and of an explosion in parentheses, with blanks, lower
case letters, signs and zeros in front. -/
theorem grammatical_selection_and_explosion :
    Grammar.Expression 1000 (Tracer.recording ['t']) 64
      "2D[-1,+02]KH+(D4!>3/4)^03".toList
      (.pool 9
        [.dropKeep 4 (Tracer.recording ['t']) .keepHighest 1
          (.pool 3 [.die 1 (.custom [-1, 2]), .die 2 (.custom [-1, 2])]),
        .arithmetic 8 (Tracer.recording ['t']) .power 3
          (.arithmetic 7 (Tracer.recording ['t']) .divide 4
            (.explode 6 (Tracer.recording ['t']) .greater (some 3)
              (.die 5 (.sided 4))))]) :=
  @grammatical_of_parse (Tracer.recording ['t'])
    " 2d[-1, +02]kh + (d4!>3/4)^03".toList _
    ⟨Memory.empty, by cbv⟩

end DiceNotation
