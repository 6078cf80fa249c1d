import Mathlib
import DiceNotation.Parse.Expression
import DiceNotation.Proofs.Die
import DiceNotation.Proofs.Grammar.Rules

/-!
# Reading words

What the readers of words return for a word of the grammar, in front of a text
that does not go on with the word.  A numeral is read to its last digit, and a
sign in front of a digit belongs to it where signs are allowed.  Numbers and
dice are written as words of the grammar, so they are read back.
-/

namespace DiceNotation
namespace Parse

open Grammar

/-! ## Numerals -/

/-- No numeral goes on in this text. -/
def NumeralEnds (rest : Text) : Prop :=
  ∀ c ∈ rest.head?, c.isDigit = false

theorem numeralEnds_cons
    {c : Char}
    (h : c.isDigit = false)
    (rest : Text) :
    NumeralEnds (c :: rest) := by
  rintro d ⟨⟩
  exact h

theorem splitDigits_none
    {rest : Text}
    (hrest : NumeralEnds rest) :
    splitDigits rest = ([], rest) := by
  cases rest with
  | nil => rfl
  | cons c rest =>
      have hc : ¬c.isDigit = true := by rw [hrest c rfl]; decide
      rw [splitDigits, List.takeWhile_cons_of_neg hc,
        List.dropWhile_cons_of_neg hc]

theorem numeralEnds_splitDigits (s : Text) : NumeralEnds (splitDigits s).2 := by
  intro c hc
  have hnot := List.head?_dropWhile_not Char.isDigit s
  rw [splitDigits, Option.mem_def] at hc
  rw [hc] at hnot
  exact hnot

theorem splitDigits_of_digits
    {digits rest : Text}
    (hdigits : ∀ c ∈ digits, c.isDigit = true)
    (hrest : NumeralEnds rest) :
    splitDigits (digits ++ rest) = (digits, rest) := by
  have htail := splitDigits_none hrest
  rw [splitDigits, Prod.mk.injEq] at htail
  rw [splitDigits, List.takeWhile_append_of_pos hdigits,
    List.dropWhile_append_of_pos hdigits, htail.1, htail.2, List.append_nil]

theorem splitSign_of_digits
    {signed : Bool} {digits : Text}
    (hdigits : ∀ c ∈ digits, c.isDigit = true)
    (hne : digits ≠ [])
    (rest : Text) :
    splitSign signed (digits ++ rest) = ([], digits ++ rest) := by
  cases digits with
  | nil => exact absurd rfl hne
  | cons c digits =>
      have hc := hdigits c List.mem_cons_self
      have hsign : (c = '-' || c = '+') = false := by
        rw [Bool.or_eq_false_iff, decide_eq_false_iff_not,
          decide_eq_false_iff_not]
        constructor
        · rintro rfl
          cases hc
        · rintro rfl
          cases hc
      rw [List.cons_append]
      cases digits ++ rest with
      | nil => rfl
      | cons d more =>
          rw [splitSign, hsign, Bool.and_false, Bool.false_and,
            if_neg Bool.false_ne_true]

/-- Digits are read as an integer if it is a value. -/
theorem integer_of_digits
    {signed : Bool} {digits rest : Text}
    (hdigits : ∀ c ∈ digits, c.isDigit = true)
    (hne : digits ≠ [])
    (hrest : NumeralEnds rest) :
    integer signed (digits ++ rest) =
      if Limits.Holds (Numeral.value digits) then
        .ok (some (Numeral.value digits), rest)
      else
        .error (.outOfRange digits) := by
  simp only [integer, splitSign_of_digits hdigits hne,
    splitDigits_of_digits hdigits hrest, List.nil_append, if_neg hne]

/-- So are digits with a sign, where signs are allowed. -/
theorem integer_of_sign
    {sign : Char} {digits rest : Text}
    (hsign : sign = '-' ∨ sign = '+')
    (hdigits : ∀ c ∈ digits, c.isDigit = true)
    (hne : digits ≠ [])
    (hrest : NumeralEnds rest) :
    integer true (sign :: (digits ++ rest)) =
      if Limits.Holds (Numeral.value (sign :: digits)) then
        .ok (some (Numeral.value (sign :: digits)), rest)
      else
        .error (.outOfRange (sign :: digits)) := by
  have hsplit :
      splitSign true (sign :: (digits ++ rest)) = ([sign], digits ++ rest) := by
    cases digits with
    | nil => exact absurd rfl hne
    | cons c digits =>
        have hc := hdigits c List.mem_cons_self
        rw [List.cons_append, splitSign, hc]
        rcases hsign with rfl | rfl <;> rfl
  simp only [integer, hsplit, splitDigits_of_digits hdigits hrest,
    List.cons_append, List.nil_append, if_neg (List.cons_ne_nil _ _)]

theorem integer_unsigned_none
    {rest : Text}
    (hrest : NumeralEnds rest) :
    integer false rest = .ok (none, rest) := by
  have hsign : splitSign false rest = ([], rest) := by
    unfold splitSign
    split <;> rfl
  simp only [integer, hsign, splitDigits_none hrest, List.append_nil, if_pos]

/-- No integer with a sign starts in this text. -/
def SignedEnds (rest : Text) : Prop :=
  NumeralEnds rest ∧ ∀ {c d : Char} {more : Text},
    rest = c :: d :: more → c = '-' ∨ c = '+' → d.isDigit = false

theorem integer_signed_none
    {rest : Text}
    (hrest : SignedEnds rest) :
    integer true rest = .ok (none, rest) := by
  have hsign : splitSign true rest = ([], rest) := by
    match rest with
    | [] => rfl
    | [c] => rfl
    | c :: d :: more =>
        rw [splitSign, if_neg]
        intro h
        simp only [Bool.true_and, Bool.and_eq_true, Bool.or_eq_true,
          decide_eq_true_eq] at h
        rw [hrest.2 rfl h.1] at h
        exact Bool.false_ne_true h.2
  simp only [integer, hsign, splitDigits_none hrest.1, List.append_nil, if_pos]

theorem integer_of_number
    {signed : Bool} {s rest : Text} {n : Nat}
    (hs : Number s n)
    (hrest : NumeralEnds rest) :
    integer signed (s ++ rest) = .ok (some (n : Int), rest) := by
  have hvalue : Numeral.value s = n := by
    rw [Numeral.value_of_isDigit hs.decimal.isDigit, hs.decimal.value_eq]
  rw [integer_of_digits hs.decimal.isDigit hs.decimal.ne_nil hrest, hvalue,
    if_pos hs.holds]

theorem integer_of_signed
    {s rest : Text} {n : Int}
    (hs : Signed s n)
    (hrest : NumeralEnds rest) :
    integer true (s ++ rest) = .ok (some n, rest) := by
  cases hs with
  | plain hs => exact integer_of_number hs hrest
  | @plus s n hs =>
      have hvalue : Numeral.value ('+' :: s) = n :=
        congrArg Nat.cast hs.decimal.value_eq
      rw [List.cons_append,
        integer_of_sign (Or.inr rfl) hs.decimal.isDigit hs.decimal.ne_nil
          hrest, hvalue, if_pos hs.holds]
  | @minus s n hs hholds =>
      have hvalue : Numeral.value ('-' :: s) = -(n : Int) :=
        congrArg (fun k : Nat => -(k : Int)) hs.value_eq
      rw [List.cons_append,
        integer_of_sign (Or.inl rfl) hs.isDigit hs.ne_nil hrest, hvalue,
        if_pos hholds]

theorem isDigit_numeral (n : Nat) : ∀ c ∈ numeral n, c.isDigit = true := by
  intro c hc
  exact Nat.isDigit_of_mem_toDigits (by decide) (by decide) hc

theorem decimal_numeral (n : Nat) : Decimal (numeral n) n where
  ne_nil := Numeral.numeral_ne_nil n
  isDigit := isDigit_numeral n
  value_eq := by
    have hvalue := Numeral.value_numeral n
    rw [Numeral.value_of_isDigit (isDigit_numeral n)] at hvalue
    exact_mod_cast hvalue

theorem number_numeral
    {n : Nat}
    (hn : (n : Int) ≤ Limits.highest) :
    Number (numeral n) n where
  decimal := decimal_numeral n
  holds := ⟨by simp only [Limits.lowest]; omega, hn⟩

/-- Every value is written as an integer that may have a sign. -/
theorem signed_numeral
    {n : Int}
    (hn : Limits.Holds n) :
    Signed (numeral n) n := by
  cases n with
  | ofNat n => exact .plain (number_numeral hn.2)
  | negSucc n => exact .minus (decimal_numeral (n + 1)) hn

/-! ## Dice -/

theorem face_of_signed
    {whole s rest : Text} {n : Int}
    (hs : Signed s n)
    (hrest : NumeralEnds rest) :
    face whole (s ++ rest) = .ok (n, rest) := by
  rw [face, integer_of_signed hs hrest]
  rfl

theorem faces_of_faces
    {whole s rest : Text} {allowed : Nat} {ns : List Int}
    (hs : Faces s ns)
    (hlength : ns.length ≤ allowed) :
    faces whole allowed (s ++ ']' :: rest) = .ok (ns, ']' :: rest) := by
  induction hs generalizing allowed with
  | last hs =>
      cases allowed with
      | zero => cases hlength
      | succ allowed =>
          rw [faces, face_of_signed hs (numeralEnds_cons (by decide) rest)]
          rfl
  | @next s t n ns hs _ ih =>
      cases allowed with
      | zero => cases hlength
      | succ allowed =>
          have hothers := ih (Nat.le_of_succ_le_succ hlength)
          rw [List.append_assoc, List.cons_append, faces,
            face_of_signed hs (numeralEnds_cons (by decide) _)]
          change (faces whole allowed _ >>= fun p =>
            Except.ok (n :: p.1, p.2)) = _
          rw [hothers]
          rfl

/-- A text of digits does not start with another character. -/
theorem ne_cons_of_digits
    {digits rest more : Text} {c : Char}
    (hdigits : ∀ d ∈ digits, d.isDigit = true)
    (hne : digits ≠ [])
    (hc : c.isDigit = false) :
    digits ++ rest ≠ c :: more := by
  intro h
  cases digits with
  | nil => exact hne rfl
  | cons d digits =>
      rw [List.cons_append, List.cons.injEq] at h
      have hd := hdigits d List.mem_cons_self
      rw [h.1, hc] at hd
      cases hd

theorem sides_of_number
    {s rest : Text} {n : Nat}
    (hs : Number s n)
    (hsides : 2 ≤ n)
    (whole group : Text)
    (hrest : NumeralEnds rest) :
    sides whole group (s ++ rest) = .ok (.sided n, rest) := by
  have hstart {c : Char} {more : Text} (hc : c.isDigit = false) :
      s ++ rest ≠ c :: more :=
    ne_cons_of_digits hs.decimal.isDigit hs.decimal.ne_nil hc
  unfold sides
  split
  · rename_i h
    exact absurd h (hstart (by decide))
  · rename_i h
    exact absurd h (hstart (by decide))
  · rename_i h
    exact absurd h (hstart (by decide))
  · rw [integer_of_number hs hrest]
    have hmany : ¬(n : Int) < 2 := by omega
    change (if (n : Int) < 2 then _ else _) = _
    rw [if_neg hmany]
    rfl

theorem sides_of_sides
    {s rest : Text} {d : Die}
    (hs : Sides s d)
    (whole group : Text)
    (hrest : NumeralEnds rest) :
    sides whole group (s ++ rest) = .ok (d, rest) := by
  cases hs with
  | number hs hsides => exact sides_of_number hs hsides whole group hrest
  | fudge => rfl
  | hundred => rfl
  | @listed s faces hs hlength =>
      have hfaces : Parse.faces whole Die.mostFaces (s ++ ']' :: rest) =
          .ok (faces, ']' :: rest) := faces_of_faces hs hlength
      rw [List.cons_append, List.append_assoc, List.singleton_append,
        sides, hfaces]
      rfl

theorem count_of_count
    {s rest : Text} {n : Nat}
    (hs : Count mostCopies s n)
    (hrest : NumeralEnds rest) :
    count (s ++ rest) = .ok (n, rest) := by
  cases hs with
  | omitted =>
      rw [List.nil_append, count, integer_unsigned_none hrest]
      rfl
  | number hs hfew hmost =>
      have hfew' : ¬(n : Int) < 1 := by omega
      have hmost' : ¬(mostCopies : Int) < n := by omega
      rw [count, integer_of_number hs hrest]
      change (if (n : Int) < 1 then _
        else if (mostCopies : Int) < n then _ else _) = _
      rw [if_neg hfew', if_neg hmost']
      rfl

/-- A die with its count is read as written. -/
theorem countedDie_of_sides
    {s t rest : Text} {n : Nat} {d : Die}
    (hs : Count mostCopies s n)
    (ht : Sides t d)
    (whole : Text)
    (hrest : NumeralEnds rest) :
    countedDie whole (s ++ 'D' :: (t ++ rest)) = .ok ((n, d), rest) := by
  rw [countedDie, count_of_count hs (numeralEnds_cons (by decide) _)]
  change (sides whole _ (t ++ rest) >>= fun p => Except.ok ((n, p.1), p.2)) = _
  rw [sides_of_sides ht whole _ hrest]
  rfl

/-! ## Written dice -/

theorem faces_numerals
    {ns : List Int}
    (hne : ns ≠ [])
    (hholds : ∀ n ∈ ns, Limits.Holds n) :
    Faces ([','].intercalate (ns.map numeral)) ns := by
  induction ns with
  | nil => exact absurd rfl hne
  | cons n ns ih =>
      rw [List.forall_mem_cons] at hholds
      cases ns with
      | nil =>
          rw [List.map_singleton, List.intercalate_singleton]
          exact .last (signed_numeral hholds.1)
      | cons n' ns =>
          have hrest := ih (List.cons_ne_nil _ _) hholds.2
          rw [List.map_cons] at hrest
          rw [List.map_cons, List.map_cons, List.intercalate_cons_cons,
            List.append_assoc]
          exact .next (signed_numeral hholds.1) hrest

/-- A well-formed die is written with its sides. -/
theorem sides_render
    {d : Die}
    (hd : d.WellFormed) :
    Sides d.render.tail d := by
  cases d with
  | sided n => exact .number (number_numeral hd.2) hd.1
  | custom ns => exact .listed (faces_numerals hd.1 hd.2.2) hd.2.1
  | fudge => exact .fudge

theorem render_die_eq (d : Die) : d.render = 'D' :: d.render.tail := by
  cases d <;> rfl

/-- A count in front of a text is written, unless it is one. -/
theorem exists_count_counted
    {most n : Nat}
    (hn : 1 ≤ n)
    (hmost : n ≤ most)
    (hhigh : (n : Int) ≤ Limits.highest)
    (text : Text) :
    ∃ s, Summand.counted n text = s ++ text ∧ Count most s n := by
  rw [Summand.counted]
  split
  · exact ⟨numeral n, rfl, .number (number_numeral hhigh) hn hmost⟩
  · have hone : n = 1 := by omega
    rw [hone]
    exact ⟨[], rfl, .omitted⟩

section CountedDice

variable {d : Die} {n : Nat} {rest : Text}

/-- A written die with its count is read back, if the count is not too
large. -/
theorem countedDie_of_counted
    (hd : d.WellFormed)
    (hn : 1 ≤ n)
    (hmost : n ≤ mostCopies)
    (whole : Text)
    (hrest : NumeralEnds rest) :
    countedDie whole (Summand.counted n d.render ++ rest) =
      .ok ((n, d), rest) := by
  have hhigh : (n : Int) ≤ Limits.highest := by
    simp only [mostCopies, Limits.highest] at *
    omega
  obtain ⟨s, hs, hcount⟩ := exists_count_counted hn hmost hhigh d.render
  rw [hs, render_die_eq, List.append_assoc, List.cons_append]
  exact countedDie_of_sides hcount (sides_render hd) whole hrest

/-- A count that is too large is refused. -/
theorem exists_fault_of_counted
    (hmost : ¬n ≤ mostCopies)
    (whole : Text) :
    ∃ fault, countedDie whole (Summand.counted n d.render ++ rest) =
      .error fault := by
  have hmany : 1 < n := by
    simp only [mostCopies] at hmost
    omega
  have hends := numeralEnds_cons (c := 'D') (by decide) (d.render.tail ++ rest)
  rw [Summand.counted, if_pos hmany, List.append_assoc, render_die_eq,
    List.cons_append, countedDie, count]
  by_cases hhigh : (n : Int) ≤ Limits.highest
  · have hfew : ¬(n : Int) < 1 := by omega
    have hmany' : (mostCopies : Int) < n := by omega
    rw [integer_of_number (number_numeral hhigh) hends]
    change ∃ fault, ((if (n : Int) < 1 then _
      else if (mostCopies : Int) < n then _ else _) >>= _) = _
    rw [if_neg hfew, if_pos hmany']
    exact ⟨_, rfl⟩
  · have hholds : ¬Limits.Holds (n : Int) := fun h => hhigh h.2
    rw [integer_of_digits (isDigit_numeral _) (Numeral.numeral_ne_nil _) hends,
      Numeral.value_numeral, if_neg hholds]
    exact ⟨_, rfl⟩

end CountedDice

/-! ## Groups, selections and comparators -/

/-- The text starts like a written group. -/
def GroupFirst (s : Text) : Prop :=
  (∃ digits more, (∀ c ∈ digits, c.isDigit = true) ∧
    s = digits ++ 'D' :: more) ∨
    ∃ more, s = '(' :: more

theorem GroupFirst.append
    {s : Text}
    (h : GroupFirst s)
    (rest : Text) :
    GroupFirst (s ++ rest) := by
  rcases h with ⟨digits, more, hdigits, rfl⟩ | ⟨more, rfl⟩
  · refine Or.inl ⟨digits, more ++ rest, hdigits, ?_⟩
    rw [List.append_assoc, List.cons_append]
  · exact Or.inr ⟨more ++ rest, rfl⟩

theorem GroupFirst.ne_nil {s : Text} (h : GroupFirst s) : s ≠ [] := by
  rcases h with ⟨digits, more, -, rfl⟩ | ⟨more, rfl⟩
  · exact List.append_ne_nil_of_right_ne_nil _ (List.cons_ne_nil _ _)
  · exact List.cons_ne_nil _ _

theorem GroupFirst.startsGroup {s : Text} (h : GroupFirst s) :
    startsGroup s = true := by
  rcases h with ⟨digits, more, hdigits, rfl⟩ | ⟨more, rfl⟩
  · rw [Parse.startsGroup,
      splitDigits_of_digits hdigits (numeralEnds_cons (by decide) more)]
    rfl
  · rfl

/-- After a term, the text ends or goes on with a character that no term
contains outside of parentheses, or with an operator. -/
def TermEnds (rest : Text) : Prop :=
  ∀ c ∈ rest.head?, c ∈ [')', '+', '-', '*', '/', '^']

theorem TermEnds.head_eq
    {c : Char} {rest : Text}
    (h : TermEnds rest)
    (hc : c ∈ rest.head?) :
    c = ')' ∨ c = '+' ∨ c = '-' ∨ c = '*' ∨ c = '/' ∨ c = '^' := by
  have hmem := h c hc
  simp only [List.mem_cons, List.not_mem_nil, or_false] at hmem
  exact hmem

theorem TermEnds.numeralEnds {rest : Text} (h : TermEnds rest) :
    NumeralEnds rest := by
  intro c hc
  rcases h.head_eq hc with rfl | rfl | rfl | rfl | rfl | rfl <;> decide

/-- Digits in front of the end of a term do not start a group. -/
theorem startsGroup_of_digits
    {digits rest : Text}
    (hdigits : ∀ c ∈ digits, c.isDigit = true)
    (hrest : TermEnds rest) :
    startsGroup (digits ++ rest) = false := by
  rw [startsGroup, splitDigits_of_digits hdigits hrest.numeralEnds]
  cases rest with
  | nil => rfl
  | cons c rest =>
      rcases hrest.head_eq rfl with rfl | rfl | rfl | rfl | rfl | rfl <;> rfl

theorem selection_of_code (s : Selection) (rest : Text) :
    selection (s.code ++ rest) = .ok (some s, rest) := by
  cases s <;> rfl

/-- No selection starts in this text. -/
def SelectionEnds (rest : Text) : Prop :=
  ∀ c ∈ rest.head?, c ≠ 'D' ∧ c ≠ 'K'

theorem selection_none
    {rest : Text}
    (hrest : SelectionEnds rest) :
    selection rest = .ok (none, rest) := by
  cases rest with
  | nil => rfl
  | cons c rest =>
      obtain ⟨hD, hK⟩ := hrest c rfl
      have hc : (c = 'D' || c = 'K') = false := by
        rw [Bool.or_eq_false_iff, decide_eq_false_iff_not,
          decide_eq_false_iff_not]
        exact ⟨hD, hK⟩
      rw [selection, hc, if_neg Bool.false_ne_true]

theorem TermEnds.selectionEnds {rest : Text} (h : TermEnds rest) :
    SelectionEnds rest := by
  intro c hc
  rcases h.head_eq hc with rfl | rfl | rfl | rfl | rfl | rfl <;> decide

theorem comparator_of_symbol (c : Comparator) (rest : Text) :
    comparator (c.symbol :: rest) = (some c, rest) := by
  cases c <;> rfl

theorem comparator_none
    {rest : Text}
    (hrest : TermEnds rest) :
    comparator rest = (none, rest) := by
  cases rest with
  | nil => rfl
  | cons c rest =>
      rcases hrest.head_eq rfl with rfl | rfl | rfl | rfl | rfl | rfl <;> rfl

/-! ## Suffixes -/

theorem termEnds_symbol (op : Operator) (rest : Text) :
    TermEnds (op.symbol :: rest) := by
  rintro c ⟨⟩
  cases op <;> simp [Operator.symbol]

theorem signedEnds_symbol
    {op : Operator}
    (hop : op ≠ .add ∧ op ≠ .subtract)
    (rest : Text) :
    SignedEnds (op.symbol :: rest) := by
  refine ⟨(termEnds_symbol op rest).numeralEnds, ?_⟩
  rintro c d more heq hsign
  have hc : op.symbol ≠ '-' ∧ op.symbol ≠ '+' := by
    cases op with
    | add => exact absurd rfl hop.1
    | subtract => exact absurd rfl hop.2
    | _ => decide
  rw [List.cons.injEq] at heq
  rw [heq.1] at hc
  rcases hsign with rfl | rfl
  · exact absurd rfl hc.1
  · exact absurd rfl hc.2

theorem suffix_of_number
    {op : Operator} {s rest : Text} {n : Nat}
    (hs : Number s n)
    (whole : Text)
    (hrest : TermEnds rest) :
    suffix whole (op.symbol :: (s ++ rest)) =
      .ok (some (op, (n : Int)), rest) := by
  have hgroup := startsGroup_of_digits hs.decimal.isDigit hrest
  have hoperator :
      operator (op.symbol :: (s ++ rest)) = some (op, s ++ rest) := by
    rw [operator, hgroup, Bool.and_false, if_neg Bool.false_ne_true,
      Operator.ofSymbol?_symbol]
    rfl
  rw [suffix, hoperator]
  dsimp only
  rw [integer_of_number hs hrest.numeralEnds]
  rfl

/-- What may follow a whole term: nothing, a closing parenthesis or another
term after a plus sign. -/
inductive AfterTerm : Text → Prop where
  | nil : AfterTerm []
  | close (rest : Text) : AfterTerm (')' :: rest)
  | term {s : Text} : GroupFirst s → AfterTerm ('+' :: s)

theorem AfterTerm.termEnds {rest : Text} (h : AfterTerm rest) :
    TermEnds rest := by
  cases h with
  | nil => rintro c ⟨⟩
  | close rest =>
      rintro c ⟨⟩
      decide
  | term _ =>
      rintro c ⟨⟩
      decide

theorem suffix_none
    {rest : Text}
    (whole : Text)
    (hrest : AfterTerm rest) :
    suffix whole rest = .ok (none, rest) := by
  cases hrest with
  | nil => rfl
  | close rest => rfl
  | term hs => rw [suffix, operator, hs.startsGroup]; rfl

/-- The text goes on with a count, which a comparator takes for its
threshold. -/
def CountFollows (rest : Text) : Prop :=
  ∃ c more, rest = '+' :: c :: more ∧ c.isDigit = true

theorem signedEnds_of_not_countFollows
    {rest : Text}
    (hrest : AfterTerm rest)
    (hcount : ¬CountFollows rest) :
    SignedEnds rest := by
  refine ⟨hrest.termEnds.numeralEnds, ?_⟩
  rintro c d more rfl hsign
  cases hrest with
  | close => rcases hsign with h | h <;> cases h
  | term =>
      rw [← Bool.not_eq_true]
      intro hd
      exact hcount ⟨d, more, rfl, hd⟩

/-- A count that follows is the count of a die. -/
theorem exists_digits_of_countFollows
    {rest : Text}
    (hrest : AfterTerm rest)
    (hcount : CountFollows rest) :
    ∃ digits more : Text, (∀ d ∈ digits, d.isDigit = true) ∧ digits ≠ [] ∧
      rest = '+' :: (digits ++ 'D' :: more) := by
  obtain ⟨c, more, rfl, hc⟩ := hcount
  cases hrest with
  | term hgroup =>
      rcases hgroup with ⟨digits, after, hdigits, hmore⟩ | ⟨after, hmore⟩
      · refine ⟨digits, after, hdigits, ?_, by rw [hmore]⟩
        rintro rfl
        cases hmore
        cases hc
      · cases hmore
        cases hc

/-- Where signs are allowed, a count behind a plus sign is read as an integer in
front of its die, unless it is out of range. -/
theorem integer_of_count
    {digits : Text}
    (hdigits : ∀ d ∈ digits, d.isDigit = true)
    (hne : digits ≠ [])
    (more : Text) :
    (∃ n, integer true ('+' :: (digits ++ 'D' :: more)) =
        .ok (some n, 'D' :: more)) ∨
      ∃ fault, integer true ('+' :: (digits ++ 'D' :: more)) =
        .error fault := by
  have hends : NumeralEnds ('D' :: more) := numeralEnds_cons (by decide) more
  rw [integer_of_sign (Or.inr rfl) hdigits hne hends]
  by_cases hholds : Limits.Holds (Numeral.value ('+' :: digits))
  · rw [if_pos hholds]
    exact Or.inl ⟨_, rfl⟩
  · rw [if_neg hholds]
    exact Or.inr ⟨_, rfl⟩

theorem expect_self (c : Char) (whole rest : Text) :
    expect c whole (c :: rest) = .ok ((), rest) := by
  rw [expect, if_pos rfl]

end Parse
end DiceNotation
