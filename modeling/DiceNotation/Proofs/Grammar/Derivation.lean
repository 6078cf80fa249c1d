import DiceNotation.Node.Render
import DiceNotation.Proofs.Parse.Words

/-!
# Derivations

Which texts the rules of dice expressions derive on each of their levels, no
matter what the texts stand for.  Here counts have no greatest value, and
parentheses nest as deep as they like.

So there are two grammars.  `Expression` says which node a text stands for, up
to a greatest count and a greatest depth of parentheses, and `Derives` only
looks at the text.  `Expression.derives` ties them together: whatever these
limits are, a text that stands for a node can be derived.

No term of a derivable text has more than two arithmetic suffixes.  That can be
seen by reading the text from left to right, without deriving it: a sign right
behind a comparator may belong to a threshold, a plus sign in front of a group
starts the next term, and any other operator starts a suffix.
-/

namespace DiceNotation
namespace Grammar

open Parse

/-- The text can be derived on a level of the rules: as a group, as a group with
a selection, as one of these with an explosion, as a term, or as an
expression. -/
inductive Derives : Binding → Text → Prop where
  | die {s : Text} {d : Die} : Sides s d → Derives .group ('D' :: s)
  | dice {s t : Text} {n : Nat} {d : Die} :
      Decimal s n → 1 ≤ n → Sides t d → Derives .group (s ++ 'D' :: t)
  | enclosed {s : Text} : Derives .sum s → Derives .group (Text.parenthesize s)
  | select {s t : Text} {tracer : Tracer} {inner node : Node} :
      Derives .group s → Selected tracer inner t node → t ≠ [] →
      Derives .select (s ++ t)
  | explode {level : Binding} {s t : Text} {tracer : Tracer}
      {inner node : Node} :
      level.rank < Binding.explode.rank → Derives level s →
      Exploded tracer inner t node →
      t ≠ [] → Derives .explode (s ++ t)
  | term {level : Binding} {s t : Text} {tracer : Tracer} {inner node : Node} :
      level.rank < Binding.arithmetic.rank → Derives level s →
      Suffixed tracer 2 inner t node → Derives .arithmetic (s ++ t)
  | last {s : Text} : Derives .arithmetic s → Derives .sum s
  | next {s t : Text} :
      Derives .arithmetic s → Derives .sum t → Derives .sum (s ++ '+' :: t)

variable {level : Binding} {s t rest : Text}

/-- Every derivable text starts like a group. -/
theorem Derives.groupFirst (h : Derives level s) : GroupFirst s := by
  induction h with
  | @die s d _ => exact Or.inl ⟨[], s, List.forall_mem_nil _, rfl⟩
  | dice hs _ _ => exact Or.inl ⟨_, _, hs.isDigit, rfl⟩
  | enclosed => exact Or.inr ⟨_, rfl⟩
  | select _ _ _ ih | explode _ _ _ _ ih | term _ _ _ ih | next _ _ ih _ =>
      exact ih.append _
  | last _ ih => exact ih

theorem Derives.arithmetic
    (h : Derives level s)
    (hlevel : level.rank < Binding.arithmetic.rank) :
    Derives .arithmetic s := by
  have hnone : Suffixed Tracer.silent 2 (.die 0 .fudge) [] (.die 0 .fudge) :=
    .none 2 _
  have hterm : Derives .arithmetic (s ++ []) := .term hlevel h hnone
  rwa [List.append_nil] at hterm

/-- What can be derived on any level is an expression. -/
theorem Derives.sum (h : Derives level s) : Derives .sum s := by
  cases level with
  | sum => exact h
  | arithmetic => exact .last h
  | _ => exact .last (h.arithmetic (by decide))

/-- A sum of two expressions is an expression. -/
theorem Derives.add
    (hs : Derives .sum s)
    (ht : Derives .sum t) :
    Derives .sum (s ++ '+' :: t) := by
  generalize hlevel : Binding.sum = level at hs
  induction hs with
  | last hs => exact .next hs ht
  | next hs _ _ ih =>
      rw [List.append_assoc, List.cons_append]
      exact .next hs (ih rfl)
  | _ => cases hlevel

theorem derives_intercalate
    {texts : List Text}
    (hne : texts ≠ [])
    (h : ∀ s ∈ texts, Derives .sum s) :
    Derives .sum (['+'].intercalate texts) := by
  induction texts with
  | nil => exact absurd rfl hne
  | cons s texts ih =>
      rw [List.forall_mem_cons] at h
      cases texts with
      | nil =>
          rw [List.intercalate_singleton]
          exact h.1
      | cons t texts =>
          rw [List.intercalate_cons_cons, List.append_assoc]
          exact h.1.add (ih (List.cons_ne_nil _ _) h.2)

/-! ## The grammar with nodes

There, a selection or an explosion may also be empty.  Here, a text with an
empty one stays on the level that it has without it. -/

section Expressions

variable {tracer : Tracer} {inner node : Node}

theorem exists_derives_selected
    (hs : Derives .group s)
    (ht : Selected tracer inner t node) :
    ∃ level : Binding, level.rank < Binding.explode.rank ∧
      Derives level (s ++ t) := by
  by_cases hne : t = []
  · refine ⟨.group, by decide, ?_⟩
    rwa [hne, List.append_nil]
  · exact ⟨.select, by decide, .select hs ht hne⟩

theorem exists_derives_exploded
    (hlevel : level.rank < Binding.explode.rank)
    (hs : Derives level s)
    (ht : Exploded tracer inner t node) :
    ∃ level : Binding, level.rank < Binding.arithmetic.rank ∧
      Derives level (s ++ t) := by
  by_cases hne : t = []
  · refine ⟨level, hlevel.trans (by decide), ?_⟩
    rwa [hne, List.append_nil]
  · exact ⟨.explode, by decide, .explode hlevel hs ht hne⟩

/-- What ties the two grammars together: every text that stands for a node can
be derived, whatever the greatest count is and however deep parentheses may
nest.  The converse fails, since a derivable text may exceed both limits. -/
theorem Expression.derives
    {most depth : Nat}
    (h : Expression most tracer depth s node) :
    Derives .sum s := by
  induction h using Expression.rec
    (motive_1 := fun _ s _ _ => Derives .group s)
    (motive_2 := fun _ s _ _ => Derives .arithmetic s)
    (motive_3 := fun _ s _ _ => Derives .sum s) with
  | dice hs ht _ =>
      cases hs with
      | omitted => exact .die ht
      | number hs hpos _ => exact .dice hs.decimal hpos ht
  | enclosed _ ih => exact .enclosed ih
  | mk _ ht hu hv ih =>
      obtain ⟨level, hlevel, hselection⟩ := exists_derives_selected ih ht
      obtain ⟨level, hlevel, hexplosion⟩ :=
        exists_derives_exploded hlevel hselection hu
      rw [← List.append_assoc, ← List.append_assoc]
      exact .term hlevel hexplosion hv
  | last _ ih => exact .last ih
  | next _ _ ihs iht => exact .next ihs iht
  | term _ ih => exact ih
  | sum _ _ _ ih => exact ih

end Expressions

/-! ## Suffixes in a row -/

/-- The text starts with a sign. -/
def signFirst : Text → Bool
  | c :: _ => c = '+' || c = '-'
  | [] => false

/-- Read from left to right, the text has a suffix too many, if so many more
suffixes fit where it starts. -/
def crowded : Nat → Text → Bool
  | _, [] => false
  | room, c :: rest =>
      if c.isDigit then
        crowded room rest
      else if (operator (c :: rest)).isSome then
        room = 0 || crowded (room - 1) rest
      else if (Comparator.ofSymbol? c).isSome && signFirst rest then
        crowded 3 rest
      else
        crowded 2 rest

/-- More room is never worse. -/
theorem crowded_mono
    {room more : Nat}
    (hroom : room ≤ more)
    (h : crowded more s = true) :
    crowded room s = true := by
  induction s generalizing room more with
  | nil => exact h
  | cons c s ih =>
      rw [crowded] at h ⊢
      by_cases hdigit : c.isDigit = true
      · rw [if_pos hdigit] at h ⊢
        exact ih hroom h
      · rw [if_neg hdigit] at h ⊢
        by_cases hoperator : (operator (c :: s)).isSome = true
        · rw [if_pos hoperator, Bool.or_eq_true, decide_eq_true_eq] at h ⊢
          exact h.imp (by omega) (ih (by omega))
        · rw [if_neg hoperator] at h ⊢
          exact h

theorem crowded_digits
    (hs : ∀ c ∈ s, c.isDigit = true)
    (room : Nat) (rest : Text) :
    crowded room (s ++ rest) = crowded room rest := by
  induction s with
  | nil => rfl
  | cons c s ih =>
      rw [List.forall_mem_cons] at hs
      rw [List.cons_append, crowded, if_pos hs.1, ih hs.2]

/-- Behind any character but a digit, an operator or a comparator, there is room
for all suffixes. -/
theorem crowded_plain
    {c : Char}
    (hdigit : c.isDigit = false)
    (hoperator : Operator.ofSymbol? c = none)
    (hcomparator : Comparator.ofSymbol? c = none)
    (room : Nat) (rest : Text) :
    crowded room (c :: rest) = crowded 2 rest := by
  have hnone : operator (c :: rest) = none := by
    rw [operator, hoperator]
    split <;> rfl
  rw [crowded, hdigit, hnone, hcomparator]
  rfl

theorem crowded_comparator (c : Comparator) (room : Nat) (rest : Text) :
    crowded room (c.symbol :: rest) =
      crowded (if signFirst rest then 3 else 2) rest := by
  have hdigit : c.symbol.isDigit = false := by cases c <;> rfl
  have hnone : operator (c.symbol :: rest) = none := by cases c <;> rfl
  rw [crowded, hdigit, hnone, Comparator.ofSymbol?_symbol]
  simp only [Bool.false_eq_true, if_false, Option.isSome_none,
    Option.isSome_some, Bool.true_and]
  split <;> rfl

theorem crowded_separator
    (h : GroupFirst rest)
    (room : Nat) :
    crowded room ('+' :: rest) = crowded 2 rest := by
  have hnone : operator ('+' :: rest) = none := by
    rw [operator, h.startsGroup]
    rfl
  rw [crowded, hnone]
  rfl

/-- An operator that does not stand in front of a group takes room. -/
theorem crowded_symbol
    (op : Operator)
    (h : startsGroup rest = false)
    (room : Nat) :
    crowded room (op.symbol :: rest) =
      (room = 0 || crowded (room - 1) rest) := by
  have hdigit : op.symbol.isDigit = false := by cases op <;> rfl
  have hsome : operator (op.symbol :: rest) = some (op, rest) := by
    rw [operator, h, Bool.and_false, if_neg Bool.false_ne_true,
      Operator.ofSymbol?_symbol]
    rfl
  rw [crowded, hdigit, hsome]
  rfl

theorem crowded_of_crowded_symbol
    (op : Operator)
    {room : Nat}
    (hroom : room ≤ 2)
    (h : crowded (room + 1) (op.symbol :: rest) = true) :
    crowded room rest = true := by
  have hdigit : op.symbol.isDigit = false := by cases op <;> rfl
  have hcomparator : Comparator.ofSymbol? op.symbol = none := by
    cases op <;> rfl
  rw [crowded, hdigit, hcomparator] at h
  cases hoperator : operator (op.symbol :: rest) with
  | some _ =>
      rw [hoperator] at h
      exact h
  | none =>
      rw [hoperator] at h
      exact crowded_mono hroom h

theorem crowded_of_signed
    {n : Int} {room : Nat}
    (hs : Signed s n)
    (hroom : room ≤ 2)
    (h : crowded (room + 1) (s ++ rest) = true) :
    crowded room rest = true := by
  cases hs with
  | plain hs =>
      rw [crowded_digits hs.decimal.isDigit] at h
      exact crowded_mono (Nat.le_succ room) h
  | @plus s _ hs =>
      have hrest : crowded room (s ++ rest) = true :=
        crowded_of_crowded_symbol .add hroom h
      rwa [crowded_digits hs.decimal.isDigit] at hrest
  | @minus s _ hs _ =>
      have hrest : crowded room (s ++ rest) = true :=
        crowded_of_crowded_symbol .subtract hroom h
      rwa [crowded_digits hs.isDigit] at hrest

theorem crowded_of_faces
    {faces : List Int}
    (hs : Faces s faces)
    (h : crowded 2 (s ++ ']' :: rest) = true) :
    crowded 2 rest = true := by
  induction hs with
  | last hs =>
      have hrest : crowded 1 (']' :: rest) = true :=
        crowded_of_signed hs (by decide) h
      rwa [crowded_plain rfl rfl rfl] at hrest
  | @next s t _ _ hs _ ih =>
      rw [List.append_assoc, List.cons_append] at h
      have hrest : crowded 1 (',' :: (t ++ ']' :: rest)) = true :=
        crowded_of_signed hs (by decide) h
      rw [crowded_plain rfl rfl rfl] at hrest
      exact ih hrest

theorem crowded_of_sides
    {d : Die}
    (hs : Sides s d)
    (h : crowded 2 (s ++ rest) = true) :
    crowded 2 rest = true := by
  cases hs with
  | number hs _ => rwa [crowded_digits hs.decimal.isDigit] at h
  | fudge | hundred =>
      rwa [List.singleton_append, crowded_plain rfl rfl rfl] at h
  | listed hs _ =>
      rw [List.cons_append, crowded_plain rfl rfl rfl, List.append_assoc] at h
      exact crowded_of_faces hs h

theorem crowded_code (selection : Selection) (room : Nat) (rest : Text) :
    crowded room (selection.code ++ rest) = crowded 2 rest := by
  cases selection <;>
    exact (crowded_plain rfl rfl rfl _ _).trans (crowded_plain rfl rfl rfl _ _)

theorem crowded_of_selected
    {tracer : Tracer} {inner node : Node} {room : Nat}
    (ht : Selected tracer inner t node)
    (hne : t ≠ [])
    (h : crowded room (t ++ rest) = true) :
    crowded 2 rest = true := by
  cases ht with
  | none => exact absurd rfl hne
  | single => rwa [crowded_code] at h
  | threshold _ _ hs =>
      rwa [List.append_assoc, crowded_code,
        crowded_digits hs.decimal.isDigit] at h

/-- Behind a comparator, there is only more room if there is a sign. -/
theorem crowded_of_crowded_comparator
    {c : Comparator} {room : Nat}
    (h : crowded room (c.symbol :: rest) = true) :
    crowded 2 rest = true := by
  rw [crowded_comparator] at h
  refine crowded_mono ?_ h
  split <;> decide

theorem crowded_of_exploded
    {tracer : Tracer} {inner node : Node} {room : Nat}
    (ht : Exploded tracer inner t node)
    (hne : t ≠ [])
    (h : crowded room (t ++ rest) = true) :
    crowded 2 rest = true := by
  cases ht with
  | none => exact absurd rfl hne
  | plain => rwa [List.singleton_append, crowded_plain rfl rfl rfl] at h
  | threshold _ hs =>
      rwa [List.cons_append, crowded_plain rfl rfl rfl,
        crowded_digits hs.decimal.isDigit] at h
  | comparator _ c =>
      rw [List.cons_append, crowded_plain rfl rfl rfl] at h
      exact crowded_of_crowded_comparator h
  | compared _ c hs =>
      rw [List.cons_append, crowded_plain rfl rfl rfl, List.cons_append,
        crowded_comparator] at h
      cases hs with
      | plain hs =>
          rw [crowded_digits hs.decimal.isDigit] at h
          refine crowded_mono ?_ h
          split <;> decide
      | plus hs => exact crowded_of_signed (.plus hs) le_rfl h
      | minus hs hholds => exact crowded_of_signed (.minus hs hholds) le_rfl h

theorem crowded_of_suffixed
    {tracer : Tracer} {inner node : Node} {room : Nat}
    (ht : Suffixed tracer room inner t node)
    (hroom : room ≤ 2)
    (h : crowded room (t ++ rest) = true) :
    crowded 0 rest = true := by
  induction ht with
  | none => exact crowded_mono (Nat.zero_le _) h
  | suffix id op hs _ ih =>
      rw [List.cons_append] at h
      have hrest := crowded_of_crowded_symbol op (by omega) h
      rw [List.append_assoc, crowded_digits hs.decimal.isDigit] at hrest
      exact ih (by omega) hrest

/-- The room for suffixes that is left behind a text of the level, at least. -/
def roomBehind (level : Binding) : Nat :=
  if level.rank < Binding.arithmetic.rank then 2 else 0

/-- If something derivable is read, it is not crowded, and it leaves room for
what follows. -/
theorem crowded_of_derives
    {room : Nat}
    (hs : Derives level s)
    (h : crowded room (s ++ rest) = true) :
    crowded (roomBehind level) rest = true := by
  -- Each rule hands the text behind its first part on to the next part, so the
  -- text behind goes through the induction.
  induction hs generalizing room rest with
  | die hs =>
      rw [List.cons_append, crowded_plain rfl rfl rfl] at h
      exact crowded_of_sides hs h
  | dice hs _ ht =>
      rw [List.append_assoc, crowded_digits hs.isDigit, List.cons_append,
        crowded_plain rfl rfl rfl] at h
      exact crowded_of_sides ht h
  | enclosed _ ih =>
      rw [Text.parenthesize, List.append_assoc, List.cons_append,
        crowded_plain rfl rfl rfl] at h
      have hrest := ih h
      rwa [List.singleton_append, crowded_plain rfl rfl rfl] at hrest
  | select _ ht hne ih =>
      rw [List.append_assoc] at h
      exact crowded_of_selected ht hne (ih h)
  | explode _ _ ht hne ih =>
      rw [List.append_assoc] at h
      exact crowded_of_exploded ht hne (ih h)
  | term hlevel _ ht ih =>
      rw [List.append_assoc] at h
      have hrest := ih h
      rw [roomBehind, if_pos hlevel] at hrest
      exact crowded_of_suffixed ht le_rfl hrest
  | last _ ih => exact ih h
  | next _ ht ihs iht =>
      rw [List.append_assoc, List.cons_append] at h
      have hrest := ihs h
      rw [crowded_separator (ht.groupFirst.append _)] at hrest
      exact iht hrest

/-- No derivable text has a suffix too many. -/
theorem Derives.not_crowded (h : Derives level s) (room : Nat) :
    crowded room s = false := by
  rw [← Bool.not_eq_true]
  intro hcrowded
  rw [← List.append_nil s] at hcrowded
  exact Bool.false_ne_true (crowded_of_derives h hcrowded)

example : crowded 2 "D6+1+1+D4".toList = false ∧
    crowded 2 "D6+1+1+1".toList = true := by
  decide

end Grammar
end DiceNotation
