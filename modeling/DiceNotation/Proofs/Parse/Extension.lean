import DiceNotation.Proofs.Grammar.Completeness
import DiceNotation.Proofs.Grammar.Soundness
import DiceNotation.Proofs.Notation.Spelling

/-!
# Words in front of a closing parenthesis

A closing parenthesis ends every word.  So a scan that succeeds on a text also
succeeds on the text with a closing parenthesis and anything else behind it: it
returns the same and leaves what was added.  The words that scans take off have
no parentheses of their own.
-/

namespace DiceNotation
namespace Parse

open Text

/-- The words that a scan takes off are free of parentheses, and another scan
takes them off as well if a closing parenthesis or nothing follows the text. -/
def Extends {α : Type} (scan again : Scan α) : Prop :=
  ∀ ⦃s rest : Text⦄ ⦃a : α⦄, scan s = .ok (a, rest) →
    (∃ w, s = w ++ rest ∧ ∀ c ∈ w, IsPlain c) ∧
      ∀ {tail : Text},
        AfterExpression tail → again (s ++ tail) = .ok (a, rest ++ tail)

/-! ## What follows the text -/

section Tail

variable {s tail : Text}

theorem AfterExpression.termEnds (h : AfterExpression tail) : TermEnds tail :=
  h.afterTerm.termEnds

/-- Unless it closes an expression, the first character stands in front of the
tail. -/
theorem AfterExpression.exists_eq_cons
    {c : Char} {more : Text}
    (h : AfterExpression tail)
    (heq : s ++ tail = c :: more)
    (hc : c ≠ ')') :
    ∃ s', s = c :: s' ∧ more = s' ++ tail := by
  cases s with
  | nil =>
      cases h with
      | nil => cases heq
      | close =>
          cases heq
          exact absurd rfl hc
  | cons d s =>
      cases heq
      exact ⟨s, rfl, rfl⟩

theorem NumeralEnds.append
    (hs : NumeralEnds s)
    (htail : AfterExpression tail) :
    NumeralEnds (s ++ tail) := by
  cases s with
  | nil => exact htail.termEnds.numeralEnds
  | cons c s =>
      rintro d ⟨⟩
      exact hs c rfl

theorem splitDigits_append_tail
    (s : Text)
    (htail : AfterExpression tail) :
    splitDigits (s ++ tail) = ((splitDigits s).1,
      (splitDigits s).2 ++ tail) := by
  have hends := (numeralEnds_splitDigits s).append htail
  have hdigits : ∀ c ∈ (splitDigits s).1, c.isDigit = true :=
    fun _ hc => List.mem_takeWhile_imp hc
  calc
    splitDigits (s ++ tail)
      = splitDigits ((splitDigits s).1 ++ ((splitDigits s).2 ++ tail)) := by
        rw [← List.append_assoc, splitDigits_append]
    _ = ((splitDigits s).1, (splitDigits s).2 ++ tail) :=
        splitDigits_of_digits hdigits hends

theorem startsGroup_append_tail
    (s : Text)
    (htail : AfterExpression tail) :
    startsGroup (s ++ tail) = startsGroup s := by
  rw [startsGroup, startsGroup, splitDigits_append_tail s htail]
  rcases splitDigits s with ⟨digits, rest⟩
  cases rest with
  | nil => cases htail <;> rfl
  | cons c rest =>
      rw [List.cons_append]
      by_cases hdie : c = 'D'
      · subst hdie
        rfl
      · by_cases hparen : c = '('
        · subst hparen
          rfl
        · simp [hdie, hparen]

end Tail

/-! ## Numbers -/

section Numbers

variable {signed : Bool} {s tail word rest : Text} {n : Int}

theorem Spells.isPlain (h : Spells signed word n) : ∀ c ∈ word, IsPlain c := by
  have hdigits {digits : Text} {k : Nat} (h : Digits digits k) :
      ∀ c ∈ digits, IsPlain c :=
    fun c hc => isPlain_of_isDigit (h.isDigit c hc)
  cases h with
  | plain h => exact hdigits h
  | plus _ h | minus _ h =>
      exact List.forall_mem_cons.mpr ⟨by decide, hdigits h⟩

theorem startsInteger_of_append
    (h : StartsInteger signed (s ++ tail))
    (htail : AfterExpression tail) :
    StartsInteger signed s := by
  have hne {c : Char} (hc : c.isDigit = true) : c ≠ ')' := by
    rintro rfl
    cases hc
  generalize heq : s ++ tail = t at h
  cases h with
  | digit hc =>
      obtain ⟨s', rfl, -⟩ := htail.exists_eq_cons heq (hne hc)
      exact .digit hc
  | sign hsigned hc hd =>
      obtain ⟨s', rfl, hmore⟩ :=
        htail.exists_eq_cons heq (by rcases hc with rfl | rfl <;> decide)
      obtain ⟨s'', rfl, -⟩ := htail.exists_eq_cons hmore.symm (hne hd)
      exact .sign hsigned hc hd

theorem LeadingInteger.append
    (h : LeadingInteger signed s word n rest)
    (htail : AfterExpression tail) :
    LeadingInteger signed (s ++ tail) word n (rest ++ tail) where
  append_eq := by rw [← List.append_assoc, h.append_eq]
  spells := h.spells
  ends := h.ends.append htail

end Numbers

theorem extends_integer (signed : Bool) :
    Extends (integer signed) (integer signed) := by
  intro s rest n? h
  cases n? with
  | none =>
      obtain ⟨hstarts, rfl⟩ := integer_eq_none_iff.mp h
      refine ⟨⟨[], rfl, List.forall_mem_nil _⟩, fun htail => ?_⟩
      exact integer_of_not_startsInteger fun hmore =>
        hstarts (startsInteger_of_append hmore htail)
  | some n =>
      obtain ⟨hholds, word, hleading⟩ := integer_eq_some_iff.mp h
      refine ⟨⟨word, hleading.append_eq.symm, hleading.spells.isPlain⟩,
        fun htail => ?_⟩
      exact integer_eq_some_iff.mpr ⟨hholds, word, hleading.append htail⟩

/-! ## Dice -/

variable {whole whole' : Text}

theorem extends_face : Extends (face whole) (face whole') := by
  intro s rest n h
  obtain ⟨⟨n?, more⟩, hinteger, hface⟩ := ok_of_bind h
  cases n? with
  | none => cases hface
  | some n' =>
      cases hface
      obtain ⟨hword, hagain⟩ := extends_integer true hinteger
      refine ⟨hword, fun htail => ?_⟩
      rw [face, hagain htail]
      rfl

theorem extends_faces (allowed : Nat) :
    Extends (faces whole allowed) (faces whole' allowed) := by
  induction allowed with
  | zero =>
      intro s rest ns h
      obtain ⟨_, _, hfaces⟩ := ok_of_bind h
      cases hfaces
  | succ allowed ih =>
      intro s rest ns h
      rw [faces] at h
      obtain ⟨⟨n, more⟩, hface, hrest⟩ := ok_of_bind h
      have hextends : Extends (face whole) (face whole') := extends_face
      obtain ⟨⟨w, rfl, hw⟩, hface'⟩ := hextends hface
      dsimp only at hrest
      split at hrest
      · rename_i more
        obtain ⟨⟨others, end'⟩, hothers, hns⟩ := ok_of_bind hrest
        cases hns
        obtain ⟨⟨v, rfl, hv⟩, hothers'⟩ := ih hothers
        refine ⟨⟨w ++ ',' :: v, by simp, ?_⟩, fun {tail} htail => ?_⟩
        · rw [List.forall_mem_append, List.forall_mem_cons]
          exact ⟨hw, by decide, hv⟩
        · rw [faces, hface' htail]
          change (faces whole' allowed (v ++ end' ++ tail) >>= fun p =>
            Except.ok (n :: p.1, p.2)) = _
          rw [hothers' htail]
          rfl
      · rename_i hcomma
        cases hrest
        refine ⟨⟨w, rfl, hw⟩, fun {tail} htail => ?_⟩
        rw [faces, hface' htail]
        dsimp only [bind, Except.bind]
        split
        · rename_i more heq
          obtain ⟨rest', rfl, -⟩ := htail.exists_eq_cons heq (by decide)
          exact absurd rfl (hcomma _)
        · rfl

theorem numeralEnds_of_integer
    {signed : Bool} {s rest : Text} {n : Int}
    (h : integer signed s = .ok (some n, rest)) :
    NumeralEnds rest := by
  obtain ⟨-, word, hleading⟩ := integer_eq_some_iff.mp h
  exact hleading.ends

theorem extends_sides (group group' : Text) :
    Extends (sides whole group) (sides whole' group') := by
  intro s rest d h
  unfold sides at h
  split at h
  · cases h
    exact ⟨⟨['F'], rfl, List.forall_mem_singleton.mpr (by decide)⟩,
      fun _ => rfl⟩
  · cases h
    exact ⟨⟨['%'], rfl, List.forall_mem_singleton.mpr (by decide)⟩,
      fun _ => rfl⟩
  · obtain ⟨⟨ns, more⟩, hfaces, hrest⟩ := ok_of_bind h
    obtain ⟨⟨_, end'⟩, hexpect, hd⟩ := ok_of_bind hrest
    cases hd
    cases eq_cons_of_expect hexpect
    have hextends :
        Extends (faces whole Die.mostFaces) (faces whole' Die.mostFaces) :=
      extends_faces Die.mostFaces
    obtain ⟨⟨w, rfl, hw⟩, hfaces'⟩ := hextends hfaces
    refine ⟨⟨'[' :: (w ++ [']']), by simp, ?_⟩, fun {tail} htail => ?_⟩
    · rw [List.forall_mem_cons, List.forall_mem_append,
        List.forall_mem_singleton]
      exact ⟨by decide, hw, by decide⟩
    · rw [List.cons_append, sides, hfaces' htail, List.cons_append]
      change (expect ']' whole' (']' :: (rest ++ tail)) >>= fun p =>
        Except.ok (Die.custom ns, p.2)) = _
      rw [expect_self]
      rfl
  · obtain ⟨⟨n?, more⟩, hinteger, hd⟩ := ok_of_bind h
    cases n? with
    | none => cases hd
    | some n =>
        dsimp only at hd
        split at hd
        · cases hd
        · rename_i hmany
          cases hd
          have hends := numeralEnds_of_integer hinteger
          obtain ⟨w, k, rfl, hnumber, rfl⟩ := exists_number_of_integer hinteger
          refine ⟨⟨w, rfl,
            fun c hc => isPlain_of_isDigit (hnumber.decimal.isDigit c hc)⟩,
            fun htail => ?_⟩
          rw [List.append_assoc]
          exact sides_of_number hnumber (by omega) whole' group'
            (hends.append htail)

theorem extends_count : Extends count count := by
  intro s rest n h
  obtain ⟨⟨n?, more⟩, hinteger, h⟩ := ok_of_bind h
  obtain ⟨hword, hagain⟩ := extends_integer false hinteger
  dsimp only at h
  split at h
  · cases h
  · rename_i hfew
    split at h
    · cases h
    · rename_i hmost
      cases h
      refine ⟨hword, fun htail => ?_⟩
      rw [count, hagain htail]
      change (if n?.getD 1 < 1 then _
        else if (mostCopies : Int) < n?.getD 1 then _ else _) = _
      rw [if_neg hfew, if_neg hmost]

theorem extends_countedDie :
    Extends (countedDie whole) (countedDie whole') := by
  intro s rest counted h
  obtain ⟨⟨n, more⟩, hcount, h⟩ := ok_of_bind h
  obtain ⟨⟨v, rfl, hv⟩, hcount'⟩ := extends_count hcount
  dsimp only at h
  split at h
  · rename_i more
    obtain ⟨⟨d, end'⟩, hsides, h⟩ := ok_of_bind h
    cases h
    have hextends (group group' : Text) :
        Extends (sides whole group) (sides whole' group') :=
      extends_sides group group'
    obtain ⟨⟨w, rfl, hw⟩, -⟩ := hextends _ [] hsides
    refine ⟨⟨v ++ 'D' :: w, by simp, ?_⟩, fun {tail} htail => ?_⟩
    · rw [List.forall_mem_append, List.forall_mem_cons]
      exact ⟨hv, by decide, hw⟩
    · obtain ⟨-, hsides'⟩ := hextends _ (v ++ 'D' :: (w ++ end') ++ tail) hsides
      rw [countedDie, hcount' htail]
      change (sides whole' _ (w ++ end' ++ tail) >>=
        fun p => Except.ok ((n, p.1), p.2)) = _
      rw [hsides' htail]
      rfl
  · cases h

/-! ## Modifiers -/

theorem extends_selection : Extends selection selection := by
  intro s rest selection? h
  have hword := exists_code_of_selection h
  rcases hword with ⟨rfl, rfl⟩ | ⟨found, rfl, rfl⟩
  · refine ⟨⟨[], rfl, List.forall_mem_nil _⟩, fun htail => ?_⟩
    apply selection_none
    cases rest with
    | nil => exact htail.termEnds.selectionEnds
    | cons c rest =>
        rintro d ⟨⟩
        constructor
        all_goals
          rintro rfl
          simp only [selection] at h
          split at h
          · split at h <;> cases h
          · rename_i hletter
            exact absurd (by decide) hletter
  · refine ⟨⟨found.code, rfl, isPlain_code found⟩, fun htail => ?_⟩
    rw [List.append_assoc, selection_of_code]

theorem comparator_append_tail
    {s tail : Text}
    (htail : AfterExpression tail) :
    comparator (s ++ tail) = ((comparator s).1, (comparator s).2 ++ tail) := by
  cases s with
  | nil => cases htail <;> rfl
  | cons c s =>
      rw [List.cons_append, comparator, comparator]
      cases Comparator.ofSymbol? c <;> rfl

theorem extends_comparator :
    Extends (fun s => .ok (comparator s)) fun s => .ok (comparator s) := by
  intro s rest found h
  have hread : comparator s = (found, rest) := Except.ok.inj h
  refine ⟨?_, fun htail => ?_⟩
  · rcases exists_symbol_of_comparator hread with ⟨-, rfl⟩ | ⟨c, -, rfl⟩
    · exact ⟨[], rfl, List.forall_mem_nil _⟩
    · exact ⟨[c.symbol], rfl,
        List.forall_mem_singleton.mpr (isPlain_symbol_comparator c)⟩
  · dsimp only
    rw [comparator_append_tail htail, hread]

theorem operator_append_tail
    {s tail : Text}
    (htail : AfterExpression tail) :
    operator (s ++ tail) = (operator s).map fun p => (p.1, p.2 ++ tail) := by
  cases s with
  | nil => cases htail <;> rfl
  | cons c s =>
      rw [List.cons_append, operator, operator, startsGroup_append_tail s htail]
      split
      · rfl
      · cases Operator.ofSymbol? c <;> rfl

theorem extends_suffix : Extends (suffix whole) (suffix whole') := by
  intro s rest found h
  unfold suffix at h
  split at h
  · rename_i hoperator
    cases h
    refine ⟨⟨[], rfl, List.forall_mem_nil _⟩, fun htail => ?_⟩
    rw [suffix, operator_append_tail htail, hoperator]
    rfl
  · rename_i op more hoperator
    obtain ⟨⟨n?, more'⟩, hinteger, hfound⟩ := ok_of_bind h
    cases n? with
    | none => cases hfound
    | some n =>
        cases hfound
        obtain ⟨⟨w, rfl, hw⟩, hinteger'⟩ := extends_integer false hinteger
        refine ⟨⟨op.symbol :: w, exists_symbol_of_operator hoperator, ?_⟩,
          fun htail => ?_⟩
        · rw [List.forall_mem_cons]
          exact ⟨isPlain_symbol_operator op, hw⟩
        · rw [suffix, operator_append_tail htail, hoperator]
          change (integer false _ >>= _) = _
          rw [hinteger' htail]
          rfl

end Parse
end DiceNotation
