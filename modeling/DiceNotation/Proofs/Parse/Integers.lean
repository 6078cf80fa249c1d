import DiceNotation.Proofs.Parse.Words

/-!
# Reading integers

An integer is written with digits, as many as there are, and with a sign in
front of them where signs are allowed.  Reading takes the whole of it, however
long it is, and gives its value unless that is out of range.  Where no integer
starts, nothing is taken.  So every value is read back from its numeral, up to
the character behind it.

A position in a text is given by the part of the text that starts there.
-/

namespace DiceNotation
namespace Parse

open Grammar

variable {signed : Bool} {s word digits rest : Text} {n : Int}

/-! ## Written integers -/

/-- An integer starts in front of the text: with a digit or, where signs are
allowed, with a sign that has a digit right behind it. -/
inductive StartsInteger (signed : Bool) : Text → Prop where
  | digit {c : Char} {rest : Text} :
      c.isDigit = true → StartsInteger signed (c :: rest)
  | sign {c d : Char} {rest : Text} :
      signed = true → c = '-' ∨ c = '+' → d.isDigit = true →
      StartsInteger signed (c :: d :: rest)

/-- The value of digits by their places: the last digit counts ones, the one in
front of it counts tens, and so on. -/
def placeValue (digits : Text) : Nat :=
  Nat.ofDigits 10 (digits.reverse.map fun c => c.toNat - '0'.toNat)

/-- One or more digits of the given value, with or without zeros in front. -/
structure Digits (digits : Text) (k : Nat) : Prop where
  ne_nil : digits ≠ []
  isDigit : ∀ c ∈ digits, c.isDigit = true
  value_eq : placeValue digits = k

/-- The words for an integer of any size. -/
inductive Spells (signed : Bool) : Text → Int → Prop where
  | plain {digits : Text} {k : Nat} : Digits digits k → Spells signed digits k
  | plus {digits : Text} {k : Nat} :
      signed = true → Digits digits k → Spells signed ('+' :: digits) k
  | minus {digits : Text} {k : Nat} :
      signed = true → Digits digits k →
        Spells signed ('-' :: digits) (-(k : Int))

/-- The text is a word for an integer and a rest on which its digits do not go
on. -/
structure LeadingInteger (signed : Bool) (s word : Text) (n : Int)
    (rest : Text) : Prop where
  append_eq : word ++ rest = s
  spells : Spells signed word n
  ends : NumeralEnds rest

/-! ## Values -/

theorem placeValue_cons (c : Char) (digits : Text) :
    placeValue (c :: digits) =
      placeValue digits + 10 ^ digits.length * (c.toNat - '0'.toNat) := by
  rw [placeValue, List.reverse_cons, List.map_append,
    Nat.ofDigits_append, List.length_map,
    List.length_reverse, List.map_singleton, Nat.ofDigits_singleton, placeValue]

/-- Digits taken from the left, where each makes ten times the value so far and
itself, have their value by places. -/
theorem ofDigitChars_eq_placeValue (digits : Text) :
    Nat.ofDigitChars 10 digits 0 = placeValue digits := by
  induction digits with
  | nil => rfl
  | cons c digits ih =>
      rw [Nat.ofDigitChars_cons, Nat.ofDigitChars_eq_ofDigitChars_zero, ih,
        placeValue_cons, Nat.mul_zero, Nat.zero_add, Nat.add_comm]

theorem Spells.value_eq (h : Spells signed word n) :
    Numeral.value word = n := by
  cases h with
  | plain hdigits =>
      rw [Numeral.value_of_isDigit hdigits.isDigit, ofDigitChars_eq_placeValue,
        hdigits.value_eq]
  | plus _ hdigits | minus _ hdigits =>
      rw [Numeral.value, ofDigitChars_eq_placeValue, hdigits.value_eq]

/-- The numbers of the grammar have their value by places. -/
theorem digits_iff_decimal
    {k : Nat} :
    Digits digits k ↔ Decimal digits k := by
  have hvalue := ofDigitChars_eq_placeValue digits
  constructor
  · intro h
    exact ⟨h.ne_nil, h.isDigit, hvalue.trans h.value_eq⟩
  · intro h
    exact ⟨h.ne_nil, h.isDigit, hvalue.symm.trans h.value_eq⟩

theorem digits_numeral (k : Nat) : Digits (numeral k) k :=
  digits_iff_decimal.mpr (decimal_numeral k)

/-- Only the numeral of a negative integer has a sign. -/
theorem spells_numeral (hsigned : n < 0 → signed = true) :
    Spells signed (numeral n) n := by
  cases n with
  | ofNat k => exact .plain (digits_numeral k)
  | negSucc k =>
      exact .minus (hsigned (Int.negSucc_lt_zero k)) (digits_numeral (k + 1))

/-! ## Integers in front of a text -/

theorem digits_splitDigits
    {c : Char}
    (hc : c.isDigit = true)
    (s : Text) :
    Digits (splitDigits (c :: s)).1 (placeValue (splitDigits (c :: s)).1) where
  ne_nil := by
    rw [splitDigits, List.takeWhile_cons_of_pos hc]
    exact List.cons_ne_nil _ _
  isDigit _ hd := List.mem_takeWhile_imp hd
  value_eq := rfl

theorem exists_leadingInteger
    (h : StartsInteger signed s) :
    ∃ word n rest, LeadingInteger signed s word n rest := by
  cases h with
  | @digit c t hc =>
      exact ⟨_, _, _, splitDigits_append (c :: t),
        .plain (digits_splitDigits hc t), numeralEnds_splitDigits (c :: t)⟩
  | @sign c d t hsigned hc hd =>
      have happend : c :: (splitDigits (d :: t)).1 ++ (splitDigits (d :: t)).2 =
          c :: d :: t := by
        rw [List.cons_append, splitDigits_append]
      have hdigits := digits_splitDigits hd t
      have hends := numeralEnds_splitDigits (d :: t)
      rcases hc with rfl | rfl
      · exact ⟨_, _, _, happend, .minus hsigned hdigits, hends⟩
      · exact ⟨_, _, _, happend, .plus hsigned hdigits, hends⟩

theorem Digits.exists_cons
    {k : Nat}
    (h : Digits digits k) :
    ∃ c more, digits = c :: more ∧ c.isDigit = true := by
  obtain ⟨c, more, rfl⟩ := List.exists_cons_of_ne_nil h.ne_nil
  exact ⟨c, more, rfl, h.isDigit c List.mem_cons_self⟩

theorem Spells.startsInteger
    (h : Spells signed word n)
    (rest : Text) :
    StartsInteger signed (word ++ rest) := by
  cases h with
  | plain hdigits =>
      obtain ⟨c, more, rfl, hc⟩ := hdigits.exists_cons
      exact .digit hc
  | plus hsigned hdigits =>
      obtain ⟨c, more, rfl, hc⟩ := hdigits.exists_cons
      exact .sign hsigned (Or.inr rfl) hc
  | minus hsigned hdigits =>
      obtain ⟨c, more, rfl, hc⟩ := hdigits.exists_cons
      exact .sign hsigned (Or.inl rfl) hc

theorem startsInteger_iff :
    StartsInteger signed s ↔
      ∃ word n rest, LeadingInteger signed s word n rest := by
  constructor
  · exact exists_leadingInteger
  · rintro ⟨word, n, rest, rfl, hspells, -⟩
    exact hspells.startsInteger rest

/-! ## Reading -/

theorem integer_of_not_startsInteger
    (h : ¬StartsInteger signed s) :
    integer signed s = .ok (none, s) := by
  have hends : NumeralEnds s := by
    intro c hc
    obtain ⟨rest, rfl⟩ := List.head?_eq_some_iff.mp hc
    exact Bool.eq_false_of_not_eq_true fun hdigit => h (.digit hdigit)
  cases signed with
  | false => exact integer_unsigned_none hends
  | true =>
      refine integer_signed_none ⟨hends, ?_⟩
      rintro c d more rfl hc
      exact Bool.eq_false_of_not_eq_true fun hdigit => h (.sign rfl hc hdigit)

theorem LeadingInteger.integer_eq
    (h : LeadingInteger signed s word n rest) :
    integer signed s =
      if Limits.Holds n then .ok (some n, rest)
        else .error (.outOfRange word) := by
  obtain ⟨rfl, hspells, hends⟩ := h
  have hvalue := hspells.value_eq
  cases hspells with
  | plain hdigits =>
      rw [integer_of_digits hdigits.isDigit hdigits.ne_nil hends, hvalue]
  | plus hsigned hdigits =>
      rw [hsigned, List.cons_append,
        integer_of_sign (Or.inr rfl) hdigits.isDigit hdigits.ne_nil hends,
        hvalue]
  | minus hsigned hdigits =>
      rw [hsigned, List.cons_append,
        integer_of_sign (Or.inl rfl) hdigits.isDigit hdigits.ne_nil hends,
        hvalue]

/-- There is nothing to read, or there is an integer, in or out of range. -/
theorem integer_cases (signed : Bool) (s : Text) :
    (¬StartsInteger signed s ∧ integer signed s = .ok (none, s)) ∨
      (∃ word n rest, LeadingInteger signed s word n rest ∧ Limits.Holds n ∧
        integer signed s = .ok (some n, rest)) ∨
      ∃ word n rest, LeadingInteger signed s word n rest ∧ ¬Limits.Holds n ∧
        integer signed s = .error (.outOfRange word) := by
  by_cases hstarts : StartsInteger signed s
  · obtain ⟨word, n, rest, hleading⟩ := exists_leadingInteger hstarts
    have hread := hleading.integer_eq
    by_cases hholds : Limits.Holds n
    · rw [if_pos hholds] at hread
      exact Or.inr (Or.inl ⟨word, n, rest, hleading, hholds, hread⟩)
    · rw [if_neg hholds] at hread
      exact Or.inr (Or.inr ⟨word, n, rest, hleading, hholds, hread⟩)
  · exact Or.inl ⟨hstarts, integer_of_not_startsInteger hstarts⟩

theorem integer_eq_none_iff :
    integer signed s = .ok (none, rest) ↔
      ¬StartsInteger signed s ∧ rest = s := by
  constructor
  · intro h
    rcases integer_cases signed s with
      ⟨hstarts, hread⟩ | ⟨_, _, _, -, -, hread⟩ | ⟨_, _, _, -, -, hread⟩
    · rw [hread] at h
      cases h
      exact ⟨hstarts, rfl⟩
    all_goals
      rw [hread] at h
      cases h
  · rintro ⟨hstarts, rfl⟩
    exact integer_of_not_startsInteger hstarts

theorem integer_eq_some_iff :
    integer signed s = .ok (some n, rest) ↔
      Limits.Holds n ∧ ∃ word, LeadingInteger signed s word n rest := by
  constructor
  · intro h
    rcases integer_cases signed s with
      ⟨-, hread⟩ | ⟨word, _, _, hleading, hholds, hread⟩ |
        ⟨_, _, _, -, -, hread⟩
    · rw [hread] at h
      cases h
    · rw [hread] at h
      cases h
      exact ⟨hholds, word, hleading⟩
    · rw [hread] at h
      cases h
  · rintro ⟨hholds, word, hleading⟩
    rw [hleading.integer_eq, if_pos hholds]

theorem exists_leadingInteger_of_error
    {fault : SyntaxFault}
    (h : integer signed s = .error fault) :
    ∃ word n rest, LeadingInteger signed s word n rest ∧ ¬Limits.Holds n ∧
      fault = .outOfRange word := by
  rcases integer_cases signed s with
    ⟨-, hread⟩ | ⟨_, _, _, -, -, hread⟩ |
      ⟨word, n, rest, hleading, hholds, hread⟩
  · rw [hread] at h
    cases h
  · rw [hread] at h
    cases h
  · rw [hread] at h
    cases h
    exact ⟨word, n, rest, hleading, hholds, rfl⟩

/-- Nothing is read, and nothing is taken off the text, exactly if no integer
starts there.  Otherwise the sign and all of the digits are taken, and they are
read as their value if that is in range and refused if it is not.  So every
value is read back from its numeral, up to the character behind it. -/
theorem integers_read_exactly (signed : Bool) :
    (∀ s rest,
        integer signed s = .ok (none, rest) ↔
          ¬StartsInteger signed s ∧ rest = s) ∧
      (∀ s, StartsInteger signed s ↔
        ∃ word n rest, LeadingInteger signed s word n rest) ∧
      (∀ s word n rest, LeadingInteger signed s word n rest →
        integer signed s =
          if Limits.Holds n then .ok (some n, rest)
            else .error (.outOfRange word)) ∧
      ∀ n rest, Limits.Holds n → (n < 0 → signed = true) → NumeralEnds rest →
        integer signed (numeral n ++ rest) = .ok (some n, rest) := by
  refine ⟨fun _ _ => integer_eq_none_iff, fun _ => startsInteger_iff,
    fun _ _ _ _ => LeadingInteger.integer_eq, ?_⟩
  intro n rest hholds hsigned hends
  have hleading :
      LeadingInteger signed (numeral n ++ rest) (numeral n) n rest :=
    ⟨rfl, spells_numeral hsigned, hends⟩
  rw [hleading.integer_eq, if_pos hholds]

/-- Zeros behind a sign count nothing, the successor of the greatest value is
refused with its sign and all of its digits, and the least value is read back up
to the letter behind it. -/
theorem padded_and_least_values_read :
    (LeadingInteger true ['-', '0', '4', '2', 'D', '6']
        ['-', '0', '4', '2'] (-42) ['D', '6'] ∧
        integer true ['-', '0', '4', '2', 'D', '6'] =
          .ok (some (-42), ['D', '6'])) ∧
      (LeadingInteger true ('+' :: numeral 2147483648)
          ('+' :: numeral 2147483648) 2147483648 [] ∧
        integer true ('+' :: numeral 2147483648) =
          .error (.outOfRange ('+' :: numeral 2147483648))) ∧
      Limits.Holds Limits.lowest ∧ NumeralEnds ['D'] ∧
        integer true (numeral Limits.lowest ++ ['D']) =
          .ok (some Limits.lowest, ['D']) := by
  obtain ⟨-, -, hread, hback⟩ := integers_read_exactly true
  have hpadded :
      LeadingInteger true ['-', '0', '4', '2', 'D', '6']
        ['-', '0', '4', '2'] (-42) ['D', '6'] := by
    have hdigits : Digits ['0', '4', '2'] 42 := ⟨by decide, by simp, by decide⟩
    exact ⟨rfl, .minus rfl hdigits, numeralEnds_cons rfl _⟩
  have hlarge :
      LeadingInteger true ('+' :: numeral 2147483648)
        ('+' :: numeral 2147483648) 2147483648 [] :=
    ⟨List.append_nil _, .plus rfl (digits_numeral _), by rintro c ⟨⟩⟩
  have hlowest : Limits.Holds Limits.lowest := by decide
  have hends : NumeralEnds ['D'] := numeralEnds_cons rfl []
  refine ⟨⟨hpadded, ?_⟩, ⟨hlarge, ?_⟩, hlowest, hends, ?_⟩
  · rw [hread _ _ _ _ hpadded, if_pos (by decide)]
  · rw [hread _ _ _ _ hlarge, if_neg (by decide)]
  · exact hback _ _ hlowest (fun _ => rfl) hends

end Parse
end DiceNotation
