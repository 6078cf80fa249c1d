import Mathlib
import DiceNotation.Node.Bounds

/-!
# What operators do to ranges

A power is the exact power clamped, although it is computed with an early exit.
Every operator but an even power keeps the order of values, and an even power
is smallest where its base is nearest to zero.  Hence the bounds of an
arithmetic modifier, computed from the bounds of its inner node, enclose the
images of all values in between.
-/

namespace DiceNotation

theorem clamp_of_lt_lowest
    {n : Int}
    (h : n < Limits.lowest) :
    clamp n = Limits.lowest := by
  simp only [clamp, Limits.lowest, Limits.highest] at *
  omega

theorem clamp_of_highest_lt
    {n : Int}
    (h : Limits.highest < n) :
    clamp n = Limits.highest := by
  simp only [clamp, Limits.lowest, Limits.highest] at *
  omega

namespace Operator

/-! ## Powers -/

/-- A product that is no value stays none when it is multiplied by a base of at
least two. -/
theorem not_holds_mul
    {n base : Int}
    (hbase : 2 ≤ |base|)
    (h : ¬Limits.Holds n) :
    ¬Limits.Holds (n * base) := by
  have hn : 2147483648 ≤ |n| := by
    simp only [Limits.Holds, Limits.lowest, Limits.highest] at h
    rw [le_abs]
    omega
  have hprod : 2147483648 * 2 ≤ |n * base| := by
    rw [abs_mul]
    exact mul_le_mul hn hbase (by norm_num) (abs_nonneg n)
  intro hholds
  simp only [Limits.Holds, Limits.lowest, Limits.highest] at hholds
  rw [le_abs] at hprod
  omega

theorem not_holds_mul_pow
    {n base : Int}
    (hbase : 2 ≤ |base|)
    (h : ¬Limits.Holds n)
    (k : Nat) :
    ¬Limits.Holds (n * base ^ k) := by
  induction k with
  | zero => simpa using h
  | succ k ih =>
      rw [pow_succ, ← mul_assoc]
      exact not_holds_mul hbase ih

/-- The early exit is taken exactly if the full product is no value: no later
product comes back into the range. -/
theorem powerFrom_eq
    {base : Int}
    (hbase : 2 ≤ |base|)
    (overflow : Int)
    (k : Nat)
    {product : Int}
    (hproduct : Limits.Holds product) :
    powerFrom base overflow k product =
      if Limits.Holds (product * base ^ k) then product * base ^ k
        else overflow := by
  induction k generalizing product with
  | zero => simp [powerFrom, hproduct]
  | succ k ih =>
      have hassoc : product * base ^ (k + 1) = product * base * base ^ k := by
        rw [pow_succ]
        ring
      rw [powerFrom, hassoc]
      by_cases hnext : Limits.Holds (product * base)
      · rw [if_pos hnext, ih hnext]
      · rw [if_neg hnext, if_neg (not_holds_mul_pow hbase hnext k)]

/-- With a base of at least two, the exit value is the end of the range on the
side of the exact power. -/
theorem powerFrom_one_eq_clamp
    {base : Int}
    (hbase : 2 ≤ |base|)
    {overflow : Int}
    {k : Nat}
    (hoverflow : base ^ k < Limits.lowest ∧ overflow = Limits.lowest ∨
      0 ≤ base ^ k ∧ overflow = Limits.highest ∨ Limits.Holds (base ^ k)) :
    powerFrom base overflow k 1 = clamp (base ^ k) := by
  rw [powerFrom_eq hbase overflow k (by decide), one_mul]
  by_cases hholds : Limits.Holds (base ^ k)
  · rw [if_pos hholds, clamp_of_holds hholds]
  · rw [if_neg hholds]
    rcases hoverflow with ⟨hlow, rfl⟩ | ⟨hnonneg, rfl⟩ | h
    · exact (clamp_of_lt_lowest hlow).symm
    · refine (clamp_of_highest_lt ?_).symm
      simp only [Limits.Holds, Limits.lowest, Limits.highest] at *
      omega
    · exact absurd h hholds

/-- A power is the exact power, clamped. -/
theorem raise_eq_clamp (base : Int) (k : Nat) :
    raise base k = clamp (base ^ k) := by
  unfold raise
  by_cases hone : k = 0 ∨ base = 1
  · rw [if_pos hone]
    rcases hone with rfl | rfl
    · rw [pow_zero, clamp_of_holds (by decide)]
    · rw [one_pow, clamp_of_holds (by decide)]
  rw [if_neg hone]
  push Not at hone
  by_cases hzero : base = 0
  · rw [if_pos hzero, hzero, zero_pow hone.1]
    rfl
  rw [if_neg hzero]
  by_cases hminus : base = -1
  · subst hminus
    by_cases hodd : k % 2 = 1
    · rw [if_pos ⟨by norm_num, hodd⟩, if_pos rfl,
        (Nat.odd_iff.mpr hodd).neg_one_pow]
      rfl
    · rw [if_neg fun h => hodd h.2, if_pos rfl,
        (Nat.even_iff.mpr (by omega)).neg_one_pow]
      rfl
  have hbase : 2 ≤ |base| := by
    rw [le_abs]
    omega
  by_cases hsign : base < 0 ∧ k % 2 = 1
  · rw [if_pos hsign, if_neg hminus]
    have hneg : base ^ k < 0 := (Nat.odd_iff.mpr hsign.2).pow_neg hsign.1
    refine powerFrom_one_eq_clamp hbase ?_
    by_cases hlow : base ^ k < Limits.lowest
    · exact Or.inl ⟨hlow, rfl⟩
    · refine Or.inr (Or.inr ⟨by omega, ?_⟩)
      simp only [Limits.highest]
      omega
  · rw [if_neg hsign, if_neg hminus]
    refine powerFrom_one_eq_clamp hbase (Or.inr (Or.inl ⟨?_, rfl⟩))
    by_cases hnonneg : 0 ≤ base
    · exact pow_nonneg hnonneg k
    · exact (Nat.even_iff.mpr (by omega)).pow_nonneg base

/-! ## Order -/

theorem apply_power (k : Nat) (value : Int) :
    power.apply k value = clamp (value ^ k) :=
  raise_eq_clamp value k

theorem isEvenPower_iff {op : Operator} {operand : Nat} :
    op.isEvenPower operand = true ↔
      op = power ∧ 0 < operand ∧ Even operand := by
  rw [Nat.even_iff]
  simp [isEvenPower, and_assoc]

/-- Every operator but an even power keeps the order of values. -/
theorem apply_mono
    {op : Operator} {operand : Nat}
    (h : op.isEvenPower operand = false)
    {a b : Int}
    (hab : a ≤ b) :
    op.apply operand a ≤ op.apply operand b := by
  cases op with
  | add => exact clamp_mono (by omega)
  | subtract => exact clamp_mono (by omega)
  | multiply => exact clamp_mono (mul_le_mul_of_nonneg_right hab (by omega))
  | divide =>
      rcases Nat.eq_zero_or_pos operand with rfl | hpos
      · simp [apply]
      · exact Int.tdiv_le_tdiv (by omega) hab
  | power =>
      rw [apply_power, apply_power]
      rcases Nat.eq_zero_or_pos operand with rfl | hpos
      · simp
      · have hodd : Odd operand := by
          rw [← Nat.not_even_iff_odd]
          intro heven
          have := isEvenPower_iff.mpr ⟨rfl, hpos, heven⟩
          rw [h] at this
          cases this
        exact clamp_mono (hodd.pow_le_pow.mpr hab)

/-- An even power grows with the distance from zero. -/
theorem apply_le_apply_of_abs_le
    {op : Operator} {operand : Nat}
    (h : op.isEvenPower operand = true)
    {a b : Int}
    (hab : |a| ≤ |b|) :
    op.apply operand a ≤ op.apply operand b := by
  obtain ⟨rfl, -, heven⟩ := isEvenPower_iff.mp h
  rw [apply_power, apply_power, ← heven.pow_abs a, ← heven.pow_abs b]
  exact clamp_mono (pow_le_pow_left₀ (abs_nonneg a) hab operand)

/-! ## Bounds -/

section FirstLeast

variable (image : Int → Int)

theorem firstLeast_mem (first : Int) (rest : List Int) :
    firstLeast image first rest ∈ first :: rest := by
  induction rest generalizing first with
  | nil => exact List.mem_singleton.mpr rfl
  | cons c rest ih =>
      have h := ih (if image c < image first then c else first)
      rw [firstLeast]
      by_cases hless : image c < image first
      · rw [if_pos hless] at h ⊢
        exact List.mem_cons_of_mem first h
      · rw [if_neg hless] at h ⊢
        rcases List.mem_cons.mp h with h | h
        · rw [h]
          exact List.mem_cons_self
        · exact List.mem_cons_of_mem _ (List.mem_cons_of_mem _ h)

theorem image_firstLeast_le
    {first : Int} {rest : List Int} {x : Int}
    (hx : x ∈ first :: rest) :
    image (firstLeast image first rest) ≤ image x := by
  induction rest generalizing first x with
  | nil => rw [List.mem_singleton.mp hx, firstLeast]
  | cons c rest ih =>
      rw [firstLeast]
      by_cases hless : image c < image first
      · rw [if_pos hless]
        rcases List.mem_cons.mp hx with rfl | hx
        · exact (ih List.mem_cons_self).trans hless.le
        · exact ih hx
      · rw [if_neg hless]
        rcases List.mem_cons.mp hx with rfl | hx
        · exact ih List.mem_cons_self
        · rcases List.mem_cons.mp hx with rfl | hx
          · exact (ih List.mem_cons_self).trans (not_lt.mp hless)
          · exact ih (List.mem_cons_of_mem _ hx)

end FirstLeast

section Bounds

variable {op : Operator} {operand : Nat} {faces : List Int} {low high : Int}

/-- Either bound of an arithmetic modifier is assumed at a bound of the inner
node or at a listed face, except for an even power of a range around zero with
no faces listed. -/
theorem boundAt_cases (e : Extreme) :
    op.boundAt operand faces low high e = low ∨
      op.boundAt operand faces low high e = high ∨
      op.boundAt operand faces low high e ∈ faces ∨
      op.isEvenPower operand = true ∧ faces = [] ∧ low < 0 ∧ 0 < high := by
  cases e with
  | greatest =>
      simp only [boundAt, greatestAt]
      split
      · exact Or.inr (Or.inl rfl)
      · exact Or.inl rfl
  | least =>
      simp only [boundAt, leastAt]
      split
      · rename_i haround
        simp only [Bool.and_eq_true, decide_eq_true_eq] at haround
        cases faces with
        | nil =>
            exact Or.inr
              (Or.inr (Or.inr ⟨haround.1.1, rfl, haround.1.2, haround.2⟩))
        | cons face rest =>
            exact Or.inr (Or.inr (Or.inl (firstLeast_mem _ face rest)))
      · split
        · exact Or.inl rfl
        · exact Or.inr (Or.inl rfl)

theorem apply_greatestAt :
    op.apply operand (op.greatestAt operand low high) =
      max (op.apply operand low) (op.apply operand high) := by
  rw [greatestAt]
  split
  · rename_i h
    exact (max_eq_right h).symm
  · rename_i h
    exact (max_eq_left (not_le.mp h).le).symm

/-- No value in the range has a greater image than the greatest bound. -/
theorem apply_le_apply_greatestAt
    {value : Int}
    (hlow : low ≤ value)
    (hhigh : value ≤ high) :
    op.apply operand value ≤ op.apply operand
      (op.greatestAt operand low high) := by
  rw [apply_greatestAt]
  cases heven : op.isEvenPower operand with
  | false => exact (apply_mono heven hhigh).trans (le_max_right _ _)
  | true =>
      rcases le_max_iff.mp (abs_le_max_abs_abs hlow hhigh) with h | h
      · exact (apply_le_apply_of_abs_le heven h).trans (le_max_left _ _)
      · exact (apply_le_apply_of_abs_le heven h).trans (le_max_right _ _)

/-- No value in the range has a smaller image than the least bound, as long as
the value is one of the faces if these are listed. -/
theorem apply_leastAt_le_apply
    {value : Int}
    (hlow : low ≤ value)
    (hhigh : value ≤ high)
    (hfaces : faces ≠ [] → value ∈ faces) :
    op.apply operand (op.leastAt operand faces low high) ≤
      op.apply operand value := by
  unfold leastAt
  by_cases haround :
    (op.isEvenPower operand && decide (low < 0) && decide (0 < high)) = true
  · rw [if_pos haround]
    simp only [Bool.and_eq_true, decide_eq_true_eq] at haround
    cases faces with
    | nil => exact apply_le_apply_of_abs_le haround.1.1 (by simp)
    | cons face rest => exact image_firstLeast_le _ (hfaces (by simp))
  · rw [if_neg haround]
    simp only [Bool.and_eq_true, decide_eq_true_eq, not_and, and_imp] at haround
    have hmin : op.apply operand low ≤ op.apply operand value ∨
        op.apply operand high ≤ op.apply operand value := by
      cases heven : op.isEvenPower operand with
      | false => exact Or.inl (apply_mono heven hlow)
      | true =>
          have hside := haround heven
          by_cases hneg : low < 0
          · refine Or.inr (apply_le_apply_of_abs_le heven ?_)
            have hhigh' := hside hneg
            rw [abs_of_nonpos (by omega), abs_of_nonpos (by omega)]
            omega
          · refine Or.inl (apply_le_apply_of_abs_le heven ?_)
            rw [abs_of_nonneg (by omega), abs_of_nonneg (by omega)]
            exact hlow
    split
    · rename_i hle
      rcases hmin with h | h
      · exact h
      · exact hle.trans h
    · rename_i hle
      rcases hmin with h | h
      · exact (not_le.mp hle).le.trans h
      · exact h

end Bounds
end Operator
end DiceNotation
