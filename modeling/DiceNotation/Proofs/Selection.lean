import Mathlib
import DiceNotation.Selection

/-!
# Selections by rank

If no value of one pool exceeds the value at the same place of another, then
the same holds of the two pools in ascending order, and so no selection sums to
more in the first pool than in the second.

A selection does not depend on the order of a pool.  Among all ways to choose
as many values, its sum is the greatest if the highest values are kept or the
lowest dropped, and the least otherwise.
-/

namespace DiceNotation
namespace Selection

theorem ascending_eq_insertionSort (values : List Int) :
    ascending values = values.insertionSort (· ≤ ·) :=
  List.mergeSort_eq_insertionSort (· ≤ ·) values

/-- Inserting a value in front of a sorted list with no smaller value. -/
theorem orderedInsert_of_pairwise_cons
    {x : Int} {l : List Int}
    (h : (x :: l).Pairwise (· ≤ ·)) :
    l.orderedInsert (· ≤ ·) x = x :: l := by
  cases l with
  | nil => rfl
  | cons y l =>
      exact List.orderedInsert_cons_of_le _ l
        (List.rel_of_pairwise_cons h (by simp))

/-- Inserting the smaller value into the smaller list gives the smaller
list. -/
theorem forall₂_orderedInsert
    {a b : Int} {l m : List Int}
    (hab : a ≤ b)
    (h : List.Forall₂ (· ≤ ·) l m)
    (hl : l.Pairwise (· ≤ ·))
    (hm : m.Pairwise (· ≤ ·)) :
    List.Forall₂ (· ≤ ·) (l.orderedInsert (· ≤ ·) a)
      (m.orderedInsert (· ≤ ·) b) := by
  induction h generalizing a b with
  | nil => simpa using hab
  | @cons x y l m hxy hlm ih =>
      rw [List.orderedInsert_cons, List.orderedInsert_cons]
      have htails :=
        fun {a b : Int} (hab : a ≤ b) => ih hab hl.of_cons hm.of_cons
      by_cases hax : a ≤ x <;> by_cases hby : b ≤ y
      · rw [if_pos hax, if_pos hby]
        exact .cons hab (.cons hxy hlm)
      · rw [if_pos hax, if_neg hby]
        have hxb : x ≤ b := by omega
        rw [← orderedInsert_of_pairwise_cons hl]
        exact .cons (hax.trans hxy) (htails hxb)
      · rw [if_neg hax, if_pos hby]
        have hay : a ≤ y := hab.trans hby
        rw [← orderedInsert_of_pairwise_cons hm]
        exact .cons (by omega) (htails hay)
      · rw [if_neg hax, if_neg hby]
        exact .cons hxy (htails hab)

/-- Sorting keeps the order of pools. -/
theorem forall₂_ascending
    {l m : List Int}
    (h : List.Forall₂ (· ≤ ·) l m) :
    List.Forall₂ (· ≤ ·) (ascending l) (ascending m) := by
  rw [ascending_eq_insertionSort, ascending_eq_insertionSort]
  induction h with
  | nil => exact .nil
  | cons hxy _ ih =>
      exact forall₂_orderedInsert hxy ih (List.pairwise_insertionSort _ _)
        (List.pairwise_insertionSort _ _)

/-- Selecting keeps the order of pools. -/
theorem forall₂_choose
    {l m : List Int}
    (s : Selection)
    (threshold : Nat)
    (h : List.Forall₂ (· ≤ ·) l m) :
    List.Forall₂ (· ≤ ·) (s.choose threshold l) (s.choose threshold m) := by
  have hsorted := forall₂_ascending h
  have hlength := h.length_eq
  cases s with
  | dropHighest =>
      simp only [choose, hlength]
      exact List.forall₂_take _ hsorted
  | dropLowest => exact List.forall₂_drop _ hsorted
  | keepHighest =>
      simp only [choose, hlength]
      exact List.forall₂_drop _ hsorted
  | keepLowest => exact List.forall₂_take _ hsorted

theorem sum_choose_le
    {l m : List Int}
    (s : Selection)
    (threshold : Nat)
    (h : List.Forall₂ (· ≤ ·) l m) :
    (s.choose threshold l).sum ≤ (s.choose threshold m).sum :=
  (forall₂_choose s threshold h).sum_le_sum

/-! ## The best choice -/

/-- How many of a number of values are chosen. -/
def count (s : Selection) (threshold total : Nat) : Nat :=
  match s with
  | dropHighest | dropLowest => total - threshold
  | keepHighest | keepLowest => threshold

/-- The first of two sums is at least as good as the second: no less if high
values are to be chosen, no greater if low values are. -/
def Prefers (s : Selection) (a b : Int) : Prop :=
  match s with
  | keepHighest | dropLowest => b ≤ a
  | keepLowest | dropHighest => a ≤ b

/-- Of all choices of the right number of values, none has a better sum. -/
structure Best (s : Selection) (threshold : Nat) (values kept : Multiset Int) :
    Prop where
  mem : kept ∈ values.powersetCard (s.count threshold values.card)
  prefers : ∀ other ∈ values.powersetCard (s.count threshold values.card),
    s.Prefers kept.sum other.sum

theorem pairwise_ascending (values : List Int) :
    (ascending values).Pairwise (· ≤ ·) := by
  rw [ascending_eq_insertionSort]
  exact List.pairwise_insertionSort _ _

theorem perm_ascending (values : List Int) : (ascending values).Perm values :=
  List.mergeSort_perm _ _

theorem choose_sublist (s : Selection) (threshold : Nat) (values : List Int) :
    (s.choose threshold values).Sublist (ascending values) := by
  cases s with
  | dropHighest | keepLowest => exact List.take_sublist _ _
  | dropLowest | keepHighest => exact List.drop_sublist _ _

theorem pairwise_choose (s : Selection) (threshold : Nat) (values : List Int) :
    (s.choose threshold values).Pairwise (· ≤ ·) :=
  (pairwise_ascending values).sublist (choose_sublist s threshold values)

/-- A choice does not depend on the order of the values. -/
theorem choose_eq_of_perm
    {l m : List Int}
    (s : Selection)
    (threshold : Nat)
    (h : l.Perm m) :
    s.choose threshold l = s.choose threshold m := by
  have hperm : (ascending l).Perm (ascending m) :=
    (perm_ascending l).trans (h.trans (perm_ascending m).symm)
  have hsame : ascending l = ascending m :=
    hperm.eq_of_pairwise' (pairwise_ascending l) (pairwise_ascending m)
  simp only [choose, hsame, h.length_eq]

/-- The first values of a list in ascending order are place by place no greater
than any others from the list. -/
theorem forall₂_take_of_sublist
    {l m : List Int}
    (hl : l.Pairwise (· ≤ ·))
    (h : m.Sublist l) :
    List.Forall₂ (· ≤ ·) (l.take m.length) m := by
  induction l generalizing m with
  | nil => simp [List.sublist_nil.mp h]
  | cons x l ih =>
      cases m with
      | nil => simp
      | cons y m =>
          have hy : y ∈ x :: l := h.subset List.mem_cons_self
          have hxy : x ≤ y := by
            rcases List.mem_cons.mp hy with rfl | hy
            · exact le_rfl
            · exact List.rel_of_pairwise_cons hl hy
          have hrest : m.Sublist l := h.tail
          exact .cons hxy (ih hl.of_cons hrest)

theorem sum_take_le_sum
    {l : List Int} {other : Multiset Int}
    (hl : l.Pairwise (· ≤ ·))
    (h : other ≤ l) :
    (l.take other.card).sum ≤ other.sum := by
  induction other using Quotient.inductionOn with
  | h m =>
      obtain ⟨m', hperm, hsublist⟩ := Multiset.coe_le.mp h
      have hle := (forall₂_take_of_sublist hl hsublist).sum_le_sum
      simpa [hperm.length_eq, hperm.sum_eq] using hle

/-- What is left out of a choice is a choice as well, so the last values have
the greatest sum because the first ones have the least. -/
theorem sum_le_sum_drop
    {l : List Int} {other : Multiset Int}
    (hl : l.Pairwise (· ≤ ·))
    (h : other ≤ l) :
    other.sum ≤ (l.drop (l.length - other.card)).sum := by
  have hrest :=
    sum_take_le_sum hl (Multiset.sub_le_self (l : Multiset Int) other)
  rw [Multiset.card_sub h, Multiset.coe_card] at hrest
  have hsplit : (l.take (l.length - other.card)).sum +
      (l.drop (l.length - other.card)).sum =
      l.sum := List.sum_take_add_sum_drop l _
  have hall : other.sum + ((l : Multiset Int) - other).sum = l.sum := by
    rw [← Multiset.sum_add, add_tsub_cancel_of_le h, Multiset.sum_coe]
  omega

/-- Selections choose the best values. -/
theorem best_choose
    {values : List Int} {threshold : Nat}
    (s : Selection)
    (h : threshold ≤ values.length) :
    s.Best threshold values (s.choose threshold values) := by
  have hlength : (ascending values).length = values.length :=
    (perm_ascending values).length_eq
  have hsame : (values : Multiset Int) = ascending values :=
    Multiset.coe_eq_coe.mpr (perm_ascending values).symm
  have hsorted := pairwise_ascending values
  constructor
  · rw [Multiset.mem_powersetCard, hsame]
    constructor
    · exact (choose_sublist s threshold values).subperm
    · cases s <;> simp [choose, count, hlength] <;> omega
  · intro other hother
    rw [Multiset.mem_powersetCard, hsame] at hother
    obtain ⟨hle, hcard⟩ := hother
    have hlow := sum_take_le_sum hsorted hle
    have hhigh := sum_le_sum_drop hsorted hle
    rw [Multiset.coe_card, hlength] at hcard
    rw [hcard] at hlow hhigh
    cases s with
    | dropHighest | keepLowest => simpa [choose, count, Prefers] using hlow
    | keepHighest => simpa [choose, count, Prefers, hlength] using hhigh
    | dropLowest =>
        simpa [choose, count, Prefers, hlength, Nat.sub_sub_self h] using hhigh

end Selection
end DiceNotation
