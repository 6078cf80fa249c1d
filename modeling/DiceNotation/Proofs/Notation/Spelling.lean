import Mathlib
import DiceNotation.Proofs.Node.Induction
import DiceNotation.Node.Render

/-!
# Spelling of written nodes

Written nodes are spelled without blanks and without lower-case letters, and
their parentheses match.  Normalizing such a text leaves it alone, and its
nesting is known from its parts.
-/

namespace DiceNotation

namespace Text

/-- The greatest number of parentheses that are open at a place of the text, if
so many are open in front of it. -/
def deepestFrom : Nat → Text → Nat
  | depth, [] => depth
  | depth, c :: s =>
      if c = '(' then
        deepestFrom (depth + 1) s
      else if c = ')' then
        max depth (deepestFrom (depth - 1) s)
      else
        deepestFrom depth s

/-- How deep parentheses nest in the text. -/
def nesting (s : Text) : Nat :=
  deepestFrom 0 s

/-- Neither a blank, nor a lower-case letter, nor a parenthesis. -/
def IsPlain (c : Char) : Prop :=
  isBlank c = false ∧ c.toUpper = c ∧ c ≠ '(' ∧ c ≠ ')'

instance (c : Char) : Decidable (IsPlain c) :=
  inferInstanceAs (Decidable (isBlank c = false ∧ c.toUpper = c ∧
    c ≠ '(' ∧ c ≠ ')'))

/-- A text of plain characters and matching parentheses. -/
inductive Spelled : Text → Prop where
  | nil : Spelled []
  | plain {c : Char} {s : Text} :
      IsPlain c → Spelled s → Spelled (c :: s)
  | enclosed {s t : Text} :
      Spelled s → Spelled t → Spelled ('(' :: (s ++ ')' :: t))

theorem isPlain_of_isDigit
    {c : Char}
    (h : c.isDigit = true) :
    IsPlain c := by
  simp only [Char.isDigit, Bool.and_eq_true, decide_eq_true_eq, ge_iff_le,
    UInt32.le_iff_toNat_le] at h
  have hrange : 48 ≤ c.toNat ∧ c.toNat ≤ 57 := h
  rw [← Char.ofNat_toNat c]
  generalize c.toNat = n at hrange
  obtain ⟨hlow, hhigh⟩ := hrange
  interval_cases n <;> decide

theorem Spelled.append
    {s t : Text}
    (hs : Spelled s)
    (ht : Spelled t) :
    Spelled (s ++ t) := by
  induction hs with
  | nil => exact ht
  | plain hc _ ih => exact .plain hc ih
  | enclosed hs _ _ ih =>
      rw [List.cons_append, List.append_assoc]
      exact .enclosed hs ih

theorem spelled_of_forall
    {s : Text}
    (h : ∀ c ∈ s, IsPlain c) :
    Spelled s := by
  induction s with
  | nil => exact .nil
  | cons c s ih =>
      exact .plain (h c List.mem_cons_self)
        (ih fun d hd => h d (List.mem_cons_of_mem _ hd))

theorem Spelled.parenthesize
    {s : Text}
    (h : Spelled s) :
    Spelled (parenthesize s) :=
  .enclosed h .nil

/-! ## Nesting -/

theorem le_deepestFrom (depth : Nat) (s : Text) :
    depth ≤ deepestFrom depth s := by
  induction s generalizing depth with
  | nil => exact le_rfl
  | cons c s ih =>
      rw [deepestFrom]
      split
      · exact (Nat.le_succ depth).trans (ih _)
      · split
        · exact le_max_left _ _
        · exact ih depth

theorem deepestFrom_plain
    {c : Char}
    (hc : IsPlain c)
    (depth : Nat)
    (s : Text) :
    deepestFrom depth (c :: s) = deepestFrom depth s := by
  rw [deepestFrom, if_neg hc.2.2.1, if_neg hc.2.2.2]

/-- The parentheses of a spelled text are closed at its end. -/
theorem Spelled.deepestFrom_append
    {s : Text}
    (h : Spelled s)
    (depth : Nat)
    (rest : Text) :
    deepestFrom depth (s ++ rest) =
      max (depth + nesting s) (deepestFrom depth rest) := by
  induction h generalizing depth rest with
  | nil => exact (max_eq_right (le_deepestFrom depth rest)).symm
  | @plain c s hc _ ih =>
      rw [List.cons_append, deepestFrom_plain hc, nesting,
        deepestFrom_plain hc, ih]
      rfl
  | @enclosed s t _ _ ihs iht =>
      have hfrom (depth : Nat) (rest : Text) :
          deepestFrom depth ('(' :: (s ++ ')' :: t) ++ rest) =
            max (depth + 1 + nesting s)
              (max (depth + 1) (max (depth + nesting t)
                (deepestFrom depth rest))) := by
        rw [List.cons_append, List.append_assoc, deepestFrom, if_pos rfl, ihs]
        congr 1
        rw [List.cons_append, deepestFrom, if_neg (by decide), if_pos rfl]
        congr 1
        exact iht depth rest
      have hzero := hfrom 0 []
      rw [List.append_nil] at hzero
      have hle := le_deepestFrom depth rest
      rw [hfrom depth rest, nesting.eq_def ('(' :: _), hzero, deepestFrom]
      omega

theorem Spelled.nesting_append
    {s : Text}
    (h : Spelled s)
    (t : Text) :
    nesting (s ++ t) = max (nesting s) (nesting t) := by
  rw [nesting, h.deepestFrom_append, Nat.zero_add]
  rfl

theorem Spelled.nesting_parenthesize
    {s : Text}
    (h : Spelled s) :
    nesting (Text.parenthesize s) = nesting s + 1 := by
  rw [Text.parenthesize, List.cons_append, nesting, deepestFrom, if_pos rfl,
    h.deepestFrom_append]
  have hend : deepestFrom (0 + 1) [')'] = 1 := by decide
  rw [hend]
  omega

theorem nesting_of_forall
    {s : Text}
    (h : ∀ c ∈ s, IsPlain c) :
    nesting s = 0 := by
  induction s with
  | nil => rfl
  | cons c s ih =>
      rw [nesting, deepestFrom_plain (h c List.mem_cons_self)]
      exact ih fun d hd => h d (List.mem_cons_of_mem _ hd)

/-! ## Normalizing -/

theorem Spelled.nesting_append_of_plain
    {s t : Text}
    (hs : Spelled s)
    (ht : ∀ c ∈ t, IsPlain c) :
    nesting (s ++ t) = nesting s := by
  rw [hs.nesting_append, nesting_of_forall ht, max_eq_left (Nat.zero_le _)]

theorem Spelled.forall_normal
    {s : Text}
    (h : Spelled s) :
    ∀ c ∈ s, isBlank c = false ∧ c.toUpper = c := by
  induction h with
  | nil => exact List.forall_mem_nil _
  | plain hc _ ih =>
      rw [List.forall_mem_cons]
      exact ⟨⟨hc.1, hc.2.1⟩, ih⟩
  | enclosed _ _ ihs iht =>
      rw [List.forall_mem_cons, List.forall_mem_append, List.forall_mem_cons]
      exact ⟨by decide, ihs, by decide, iht⟩

/-- Normalizing leaves a spelled text alone. -/
theorem Spelled.normalize
    {s : Text}
    (h : Spelled s) :
    normalize s = s := by
  have hfilter : s.filter (fun c => !isBlank c) = s := by
    rw [List.filter_eq_self]
    intro c hc
    rw [(h.forall_normal c hc).1, Bool.not_false]
  rw [Text.normalize, hfilter]
  exact (List.map_congr_left fun c hc => (h.forall_normal c hc).2).trans
    (List.map_id s)

/-- Upper case neither makes nor removes a parenthesis. -/
theorem toUpper_eq_iff
    {c p : Char}
    (hp : p = '(' ∨ p = ')') :
    c.toUpper = p ↔ c = p := by
  by_cases hlower : 97 ≤ c.toNat ∧ c.toNat ≤ 122
  · obtain ⟨hlow, hhigh⟩ := hlower
    rw [← Char.ofNat_toNat c]
    generalize c.toNat = n at hlow hhigh
    rcases hp with rfl | rfl <;> interval_cases n <;> decide
  · have hupper : c.toUpper = c := dif_neg hlower
    rw [hupper]

theorem normalize_cons (c : Char) (s : Text) :
    normalize (c :: s) =
      if isBlank c then normalize s else c.toUpper :: normalize s := by
  rw [normalize, List.filter_cons]
  cases isBlank c <;> rfl

theorem normalize_append (s t : Text) :
    normalize (s ++ t) = normalize s ++ normalize t := by
  rw [normalize, List.filter_append, List.map_append]
  rfl

theorem deepestFrom_normalize (depth : Nat) (s : Text) :
    deepestFrom depth (normalize s) = deepestFrom depth s := by
  induction s generalizing depth with
  | nil => rfl
  | cons c s ih =>
      rw [normalize_cons]
      by_cases hblank : isBlank c = true
      · have hopen : c ≠ '(' := by
          rintro rfl
          cases hblank
        have hclose : c ≠ ')' := by
          rintro rfl
          cases hblank
        rw [if_pos hblank, deepestFrom, if_neg hopen, if_neg hclose, ih]
      · rw [if_neg hblank, deepestFrom, deepestFrom]
        simp only [toUpper_eq_iff (.inl rfl), toUpper_eq_iff (.inr rfl), ih]

/-- Normalizing leaves the nesting of parentheses alone. -/
theorem nesting_normalize (s : Text) : nesting (normalize s) = nesting s :=
  deepestFrom_normalize 0 s

theorem spelled_intercalate
    {texts : List Text}
    (h : ∀ s ∈ texts, Spelled s) :
    Spelled (['+'].intercalate texts) := by
  induction texts with
  | nil => exact .nil
  | cons s rest ih =>
      have hs := h s List.mem_cons_self
      have hrest := ih fun t ht => h t (List.mem_cons_of_mem _ ht)
      cases rest with
      | nil =>
          rw [List.intercalate_singleton]
          exact hs
      | cons t rest =>
          rw [List.intercalate_cons_cons, List.append_assoc]
          exact hs.append (.plain (by decide) hrest)

theorem nesting_intercalate_le
    {texts : List Text} {depth : Nat}
    (h : ∀ s ∈ texts, Spelled s) :
    nesting (['+'].intercalate texts) ≤ depth ↔
      ∀ s ∈ texts, nesting s ≤ depth := by
  induction texts with
  | nil => exact iff_of_true (Nat.zero_le _) (List.forall_mem_nil _)
  | cons s texts ih =>
      rw [List.forall_mem_cons] at h
      cases texts with
      | nil => rw [List.intercalate_singleton, List.forall_mem_singleton]
      | cons s' texts =>
          have hplain : ∀ c ∈ ['+'], IsPlain c :=
            List.forall_mem_singleton.mpr (by decide)
          have hspelled : Spelled (s ++ ['+']) :=
            h.1.append (spelled_of_forall hplain)
          rw [List.intercalate_cons_cons, hspelled.nesting_append,
            h.1.nesting_append_of_plain hplain, max_le_iff, ih h.2,
            List.forall_mem_cons (a := s)]

theorem length_le_length_intercalate
    {texts : List Text}
    (h : ∀ s ∈ texts, s ≠ []) :
    texts.length ≤ (['+'].intercalate texts).length := by
  induction texts with
  | nil => exact Nat.zero_le _
  | cons s texts ih =>
      rw [List.forall_mem_cons] at h
      have hs := List.length_pos_iff.mpr h.1
      cases texts with
      | nil =>
          rw [List.intercalate_singleton]
          exact hs
      | cons s' texts =>
          have hrest := ih h.2
          rw [List.intercalate_cons_cons, List.length_append,
            List.length_append, List.length_cons]
          omega

end Text

open Text

/-! ## Words -/

theorem isPlain_numeral (n : Int) : ∀ c ∈ numeral n, IsPlain c := by
  have hdigits (k : Nat) : ∀ c ∈ Nat.toDigits 10 k, IsPlain c := by
    intro c hc
    exact isPlain_of_isDigit (Nat.isDigit_of_mem_toDigits (by decide)
      (by decide) hc)
  cases n with
  | ofNat k => exact hdigits k
  | negSucc k => exact List.forall_mem_cons.mpr ⟨by decide, hdigits (k + 1)⟩

theorem isPlain_intercalate
    {texts : List Text}
    (h : ∀ s ∈ texts, ∀ c ∈ s, IsPlain c) :
    ∀ c ∈ [','].intercalate texts, IsPlain c := by
  induction texts with
  | nil => exact List.forall_mem_nil _
  | cons s rest ih =>
      have hs := h s List.mem_cons_self
      have hrest := ih fun t ht => h t (List.mem_cons_of_mem _ ht)
      cases rest with
      | nil =>
          rw [List.intercalate_singleton]
          exact hs
      | cons t rest =>
          rw [List.intercalate_cons_cons, List.forall_mem_append,
            List.forall_mem_append]
          exact ⟨⟨hs, List.forall_mem_singleton.mpr (by decide)⟩, hrest⟩

theorem isPlain_render_die (d : Die) : ∀ c ∈ d.render, IsPlain c := by
  cases d with
  | sided sides =>
      exact List.forall_mem_cons.mpr ⟨by decide, isPlain_numeral sides⟩
  | custom faces =>
      have hfaces : ∀ c ∈ [','].intercalate (faces.map numeral), IsPlain c :=
        isPlain_intercalate
          (List.forall_mem_map.mpr fun n _ => isPlain_numeral n)
      simp only [Die.render, List.cons_append, List.forall_mem_cons,
        List.forall_mem_append]
      exact ⟨by decide, by decide, hfaces, by decide, List.forall_mem_nil _⟩
  | fudge =>
      simp only [Die.render, List.forall_mem_cons]
      exact ⟨by decide, by decide, List.forall_mem_nil _⟩

theorem isPlain_code (selection : Selection) :
    ∀ c ∈ selection.code, IsPlain c := by
  cases selection <;> simp only [Selection.code, List.forall_mem_cons] <;>
    exact ⟨by decide, by decide, List.forall_mem_nil _⟩

theorem isPlain_symbol_operator (op : Operator) : IsPlain op.symbol := by
  cases op <;> decide

theorem isPlain_symbol_comparator (comparator : Comparator) :
    IsPlain comparator.symbol := by
  cases comparator <;> decide

/-! ## Written nodes -/

namespace Summand

theorem forall_mem_collapseAfter
    {P : Text → Prop} {first : Summand} {count : Nat} {rest : List Summand}
    (hcounted : ∀ count s, P s → P (counted count s))
    (h : ∀ summand ∈ first :: rest, P summand.text) :
    ∀ s ∈ collapseAfter first count rest, P s := by
  induction rest generalizing first count with
  | nil =>
      intro s hs
      rw [collapseAfter, List.mem_singleton] at hs
      rw [hs]
      exact hcounted count _ (h first List.mem_cons_self)
  | cons next rest ih =>
      have hrest : ∀ summand ∈ next :: rest, P summand.text :=
        fun summand hsummand => h summand (List.mem_cons_of_mem _ hsummand)
      rw [collapseAfter]
      split
      · apply ih
        rw [List.forall_mem_cons] at h hrest ⊢
        exact ⟨h.1, hrest.2⟩
      · rw [List.forall_mem_cons]
        exact ⟨hcounted count _ (h first List.mem_cons_self), ih hrest⟩

theorem collapseAfter_ne_nil
    {first : Summand} {count : Nat} {rest : List Summand} :
    collapseAfter first count rest ≠ [] := by
  induction rest generalizing first count with
  | nil => exact List.cons_ne_nil _ _
  | cons next rest ih =>
      rw [collapseAfter]
      split
      · exact ih
      · exact List.cons_ne_nil _ _

theorem counted_ne_nil
    {count : Nat} {s : Text}
    (h : s ≠ []) :
    counted count s ≠ [] := by
  rw [counted]
  split
  · exact List.append_ne_nil_of_right_ne_nil _ h
  · exact h

theorem spelled_counted
    {count : Nat} {s : Text}
    (h : Spelled s) :
    Spelled (counted count s) := by
  rw [counted]
  split
  · exact (spelled_of_forall (isPlain_numeral _)).append h
  · exact h

theorem spelled_join
    {summands : List Summand}
    (h : ∀ summand ∈ summands, Spelled summand.text) :
    Spelled (join summands) := by
  apply spelled_intercalate
  intro s hs
  have hmem := (List.dropWhile_sublist _).subset hs
  cases summands with
  | nil => exact absurd hmem List.not_mem_nil
  | cons first rest =>
      exact forall_mem_collapseAfter (fun _ _ => spelled_counted) h s hmem

end Summand

namespace Node

theorem spelled_encloseAt
    {limit binding : Binding} {s : Text}
    (h : Spelled s) :
    Spelled (encloseAt limit binding s) := by
  rw [encloseAt]
  split
  · exact h.parenthesize
  · exact h

/-- Every node is written as a spelled text. -/
theorem spelled_render (node : Node) : Spelled node.render := by
  induction node using induction_members with
  | die id d => exact spelled_of_forall (isPlain_render_die _)
  | pool id items ih =>
      rw [render, summands_eq_map]
      exact Summand.spelled_join (List.forall_mem_map.mpr ih)
  | arithmetic id tracer op operand inner ih =>
      rw [render]
      refine Spelled.append ?_ (.plain (isPlain_symbol_operator op) ?_)
      · split
        · exact ih.parenthesize
        · exact ih
      · exact spelled_of_forall (isPlain_numeral _)
  | dropKeep id tracer selection threshold inner ih _ =>
      rw [render]
      refine ((spelled_encloseAt ih).append ?_).append ?_
      · exact spelled_of_forall (isPlain_code _)
      · exact spelled_of_forall (isPlain_numeral _)
  | explode id tracer comparator threshold inner ih _ =>
      cases threshold with
      | none =>
          rw [render]
          refine (spelled_encloseAt ih).append (.plain (by decide) ?_)
          split
          · exact .nil
          · exact .plain (isPlain_symbol_comparator comparator) .nil
      | some t =>
          rw [render]
          refine (spelled_encloseAt ih).append (.plain (by decide) ?_)
          exact .plain (isPlain_symbol_comparator comparator)
            (spelled_of_forall (isPlain_numeral _))

end Node
end DiceNotation
