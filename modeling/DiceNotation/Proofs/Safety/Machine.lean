import DiceNotation.Proofs.Selection
import DiceNotation.Proofs.Trace.Truth

/-!
# Guarded operations

On a machine, some operations of an evaluation are partial: a product has to
fit into 64 bits, an index has to lie inside of its list, a divisor must not be
zero.  Below, every such operation has a guarded form, which stops with a fault
instead.  Parameters that passed the checks of the constructors, and values in
their range, never meet a fault.

Sums are tallied value by value.  Only a sum of too many values could leave the
64 bits, so a tally that has counted that far stops as crowded.
-/

namespace DiceNotation

/-- What an operation can stop with. -/
inductive Fault where
  | emptyRange
  | noFace
  | noFaces
  | outside
  | noPool
  | divisionByZero
  | overflow
  | crowded
  deriving DecidableEq, Repr

namespace Fault

variable {α β : Type}

@[simp]
theorem pure_eq_ok (a : α) : (pure a : Except Fault α) = .ok a :=
  rfl

@[simp]
theorem ok_bind (a : α) (f : α → Except Fault β) : (Except.ok a >>= f) = f a :=
  rfl

@[simp]
theorem error_bind (fault : Fault) (f : α → Except Fault β) :
    (Except.error fault >>= f) = .error fault :=
  rfl

/-- An operation has a result with a property, unless it stops as crowded. -/
inductive Spares (P : α → Prop) : Except Fault α → Prop where
  | ok {a : α} : P a → Spares P (.ok a)
  | crowded : Spares P (.error .crowded)

theorem Spares.bind
    {P : α → Prop} {Q : β → Prop} {r : Except Fault α} {f : α → Except Fault β}
    (hr : Spares P r)
    (hf : ∀ a, P a → Spares Q (f a)) :
    Spares Q (r >>= f) := by
  cases hr with
  | ok ha => exact hf _ ha
  | crowded => exact .crowded

end Fault

namespace Machine

/-- An exact result that has to fit into 64 bits. -/
def wide (n : Int) : Except Fault Int :=
  if -9223372036854775808 ≤ n ∧ n ≤ 9223372036854775807 then .ok n
  else .error .overflow

/-- An exact result that has to fit into 32 bits. -/
def narrow (n : Int) : Except Fault Int :=
  if Limits.Holds n then .ok n else .error .overflow

theorem wide_of_abs_le {n : Int} (h : |n| ≤ 9223372036854775807) :
    wide n = .ok n := by
  rw [abs_le] at h
  exact if_pos ⟨by omega, h.2⟩

theorem narrow_of_holds {n : Int} (h : Limits.Holds n) : narrow n = .ok n :=
  if_pos h

/-- The values of a list between two offsets, which have to lie in order inside
of the list. -/
def slice (values : List Int) (first last : Int) : Except Fault (List Int) :=
  if 0 ≤ first ∧ first ≤ last ∧ last ≤ values.length then
    .ok ((values.take last.toNat).drop first.toNat)
  else
    .error .outside

end Machine

theorem Limits.Holds.abs_le {n : Int} (h : Limits.Holds n) :
    |n| ≤ 2147483648 := by
  simp only [Limits.Holds, Limits.lowest, Limits.highest] at h
  refine abs_le'.mpr ⟨?_, ?_⟩ <;> omega

/-! ## Sums -/

/-- The sum of the values so far, and their number. -/
structure Tally where
  count : Nat
  sum : Int

namespace Tally

/-- The most values that may be summed up. -/
def most : Nat := 4294967295

/-- The tally of no values. -/
def zero : Tally := ⟨0, 0⟩

/-- The tally with one more value. -/
def add (t : Tally) (value : Int) : Except Fault Tally :=
  if t.count < most then do
    let sum ← Machine.wide (t.sum + value)
    return ⟨t.count + 1, sum⟩
  else
    .error .crowded

/-- The tally with more values, one after another. -/
def addAll (t : Tally) (values : List Int) : Except Fault Tally :=
  values.foldlM add t

/-- The reading of a sum whose parts were tallied. -/
def reading (t : Tally) (parts : List Reading) : Reading :=
  ⟨clamp t.sum, Trace.join (parts.map fun r => Trace.asSummand r.trace)⟩

/-- The tally counts and sums up these values. -/
structure Counts (t : Tally) (values : List Int) : Prop where
  count : t.count = values.length
  sum : t.sum = values.sum
  holds : ∀ n ∈ values, Limits.Holds n

theorem counts_zero : zero.Counts [] where
  count := rfl
  sum := rfl
  holds := by simp

theorem reading_eq_total
    {t : Tally} {parts : List Reading}
    (h : t.Counts (parts.map Reading.value)) :
    t.reading parts = Reading.total parts := by
  rw [reading, h.sum]
  rfl

/-- A sum of values is bounded by their number. -/
theorem abs_sum_le
    {values : List Int}
    (h : ∀ n ∈ values, Limits.Holds n) :
    |values.sum| ≤ values.length * 2147483648 := by
  induction values with
  | nil => simp
  | cons n rest ih =>
      rw [List.forall_mem_cons] at h
      have hfirst := h.1.abs_le
      have hrest := ih h.2
      have hsum : |n + rest.sum| ≤ |n| + |rest.sum| := abs_add_le n rest.sum
      simp only [List.sum_cons, List.length_cons]
      push_cast
      omega

/-- A tally is crowded when it has counted as many values as may be summed
up. -/
theorem add_eq_crowded_iff (t : Tally) (n : Int) :
    t.add n = .error .crowded ↔ most ≤ t.count := by
  by_cases hcount : t.count < most
  · by_cases hwide :
      -9223372036854775808 ≤ t.sum + n ∧ t.sum + n ≤ 9223372036854775807
    · simp [add, hcount, Machine.wide, hwide]
    · simp [add, hcount, Machine.wide, hwide]
  · simp [add, hcount, not_lt.mp hcount]

/-- Only a crowded tally refuses a value. -/
theorem spares_add
    {t : Tally} {values : List Int} {n : Int}
    (ht : t.Counts values)
    (hn : Limits.Holds n) :
    Fault.Spares (fun t => t.Counts (values ++ [n])) (t.add n) := by
  by_cases hcount : t.count < most
  · have hholds : ∀ m ∈ values ++ [n], Limits.Holds m := by
      rw [List.forall_mem_append, List.forall_mem_singleton]
      exact ⟨ht.holds, hn⟩
    have hsum : (values ++ [n]).sum = t.sum + n := by simp [ht.sum]
    have hbound := abs_sum_le hholds
    have hlength : (values ++ [n]).length ≤ most := by
      simp only [List.length_append, List.length_singleton, ← ht.count]
      omega
    have hwide : Machine.wide (t.sum + n) = .ok (t.sum + n) := by
      apply Machine.wide_of_abs_le
      rw [← hsum]
      simp only [most] at hlength
      omega
    simp only [add, hcount, if_true, hwide]
    exact .ok ⟨by simp [ht.count], hsum.symm, hholds⟩
  · simp only [add, hcount, if_false]
    exact .crowded

theorem spares_addAll
    {t : Tally} {before values : List Int}
    (ht : t.Counts before)
    (hvalues : ∀ n ∈ values, Limits.Holds n) :
    Fault.Spares (fun t => t.Counts (before ++ values)) (t.addAll values) := by
  induction values generalizing t before with
  | nil =>
      rw [List.append_nil]
      exact .ok ht
  | cons n rest ih =>
      rw [List.forall_mem_cons] at hvalues
      rw [addAll, List.foldlM_cons]
      apply (spares_add ht hvalues.1).bind
      intro t' ht'
      simpa [addAll] using ih ht' hvalues.2

end Tally

/-! ## Operators -/

namespace Operator

/-- A power by repeated products, each of which has to fit into 64 bits. -/
def guardedPowerFrom (base overflow : Int) : Nat → Int → Except Fault Int
  | 0, product => Machine.narrow product
  | n + 1, product => do
      let next ← Machine.wide (product * base)
      if Limits.Holds next then guardedPowerFrom base overflow n next
      else return overflow

/-- A guarded power. -/
def guardedRaise (base : Int) (exponent : Nat) : Except Fault Int :=
  if exponent = 0 ∨ base = 1 then
    .ok 1
  else if base = 0 then
    .ok 0
  else if base < 0 ∧ exponent % 2 = 1 then
    if base = -1 then .ok (-1)
    else guardedPowerFrom base Limits.lowest exponent 1
  else
    if base = -1 then .ok 1 else guardedPowerFrom base Limits.highest exponent 1

/-- The guarded form of an operator. -/
def guardedApply (op : Operator) (operand : Nat) (value : Int) :
    Except Fault Int :=
  match op with
  | add => do return clamp (← Machine.wide (value + operand))
  | subtract => do return clamp (← Machine.wide (value - operand))
  | multiply => do return clamp (← Machine.wide (value * operand))
  | divide =>
      if operand = 0 then .error .divisionByZero
      else Machine.narrow (value.tdiv operand)
  | power => guardedRaise value operand

/-- The first of the candidates whose guarded image is smallest. -/
def guardedFirstLeast (image : Int → Except Fault Int) (first : Int) :
    List Int → Except Fault Int
  | [] => .ok first
  | c :: rest => do
      let image' ← image c
      let least ← image first
      guardedFirstLeast image (if image' < least then c else first) rest

/-- The guarded operand value of a bound. -/
def guardedBoundAt (op : Operator) (operand : Nat) (faces : List Int)
    (low high : Int) : Extreme → Except Fault Int
  | .least =>
      if op.isEvenPower operand && low < 0 && 0 < high then
        match faces with
        | [] => .ok 0
        | face :: rest => guardedFirstLeast (op.guardedApply operand) face rest
      else do
        let atLow ← op.guardedApply operand low
        let atHigh ← op.guardedApply operand high
        return if atLow ≤ atHigh then low else high
  | .greatest => do
      let atHigh ← op.guardedApply operand high
      let atLow ← op.guardedApply operand low
      return if atLow ≤ atHigh then high else low

variable {op : Operator} {operand : Nat} {value : Int}

theorem abs_mul_le
    {m n : Int}
    (hm : Limits.Holds m)
    (hn : Limits.Holds n) :
    |m * n| ≤ 9223372036854775807 := by
  have hprod : |m| * |n| ≤ 2147483648 * 2147483648 :=
    mul_le_mul hm.abs_le hn.abs_le (abs_nonneg n) (by norm_num)
  rw [abs_mul]
  omega

/-- No product of a power overflows, because the one before it is a value. -/
theorem guardedPowerFrom_eq
    {base product : Int}
    (hbase : Limits.Holds base)
    (hproduct : Limits.Holds product)
    (overflow : Int)
    (k : Nat) :
    guardedPowerFrom base overflow k product =
      .ok (powerFrom base overflow k product) := by
  induction k generalizing product with
  | zero => exact Machine.narrow_of_holds hproduct
  | succ k ih =>
      have hwide := Machine.wide_of_abs_le (abs_mul_le hproduct hbase)
      by_cases hnext : Limits.Holds (product * base)
      · have hrest := ih hnext
        simpa [guardedPowerFrom, powerFrom, hwide, hnext] using hrest
      · simp [guardedPowerFrom, powerFrom, hwide, hnext]

theorem guardedRaise_eq
    {base : Int}
    (hbase : Limits.Holds base)
    (k : Nat) :
    guardedRaise base k = .ok (raise base k) := by
  have hpower (overflow : Int) :=
    guardedPowerFrom_eq hbase (by decide : Limits.Holds 1) overflow k
  unfold guardedRaise raise
  split_ifs <;> first | rfl | exact hpower _

/-- The parameters of an operator passed the checks of its constructor. -/
structure Fits (op : Operator) (operand : Nat) : Prop where
  le_highest : (operand : Int) ≤ Limits.highest
  not_divide_zero : ¬(op = .divide ∧ operand = 0)

theorem Fits.guardedApply_eq
    (h : op.Fits operand)
    (hvalue : Limits.Holds value) :
    op.guardedApply operand value = .ok (op.apply operand value) := by
  have hoperand : Limits.Holds operand := by
    have hhigh := h.le_highest
    simp only [Limits.Holds, Limits.lowest, Limits.highest] at *
    omega
  have hleft := hvalue.abs_le
  have hright := hoperand.abs_le
  cases op with
  | add =>
      have hsum : |value + operand| ≤ |value| + |(operand : Int)| :=
        abs_add_le _ _
      have hwide := Machine.wide_of_abs_le
        (by omega : |value + operand| ≤ 9223372036854775807)
      simp [guardedApply, apply, hwide]
  | subtract =>
      have hdiff : |value - operand| ≤ |value| + |(operand : Int)| :=
        abs_sub _ _
      have hwide := Machine.wide_of_abs_le
        (by omega : |value - operand| ≤ 9223372036854775807)
      simp [guardedApply, apply, hwide]
  | multiply =>
      have hwide := Machine.wide_of_abs_le (abs_mul_le hvalue hoperand)
      simp [guardedApply, apply, hwide]
  | divide =>
      have hne : operand ≠ 0 := fun hzero => h.not_divide_zero ⟨rfl, hzero⟩
      have hnarrow := Machine.narrow_of_holds (holds_tdiv hvalue operand)
      simp [guardedApply, apply, hne, hnarrow]
  | power => exact guardedRaise_eq hvalue operand

theorem holds_apply (hvalue : Limits.Holds value) :
    Limits.Holds (op.apply operand value) := by
  cases op with
  | divide => exact holds_tdiv hvalue operand
  | power =>
      rw [apply_power]
      exact clamp_holds _
  | _ => exact clamp_holds _

theorem Fits.guardedFirstLeast_eq
    (h : op.Fits operand)
    {first : Int} {rest : List Int}
    (hfirst : Limits.Holds first)
    (hrest : ∀ n ∈ rest, Limits.Holds n) :
    guardedFirstLeast (op.guardedApply operand) first rest =
      .ok (firstLeast (op.apply operand) first rest) := by
  induction rest generalizing first with
  | nil => rfl
  | cons c rest ih =>
      rw [List.forall_mem_cons] at hrest
      have hleast : Limits.Holds (if op.apply operand c <
          op.apply operand first then c else first) := by
        split
        · exact hrest.1
        · exact hfirst
      have hnext := ih hleast hrest.2
      simpa [guardedFirstLeast, firstLeast, h.guardedApply_eq hrest.1,
        h.guardedApply_eq hfirst] using hnext

theorem Fits.guardedBoundAt_eq
    (h : op.Fits operand)
    {faces : List Int} {low high : Int}
    (hfaces : ∀ face ∈ faces, Limits.Holds face)
    (hlow : Limits.Holds low)
    (hhigh : Limits.Holds high)
    (e : Extreme) :
    op.guardedBoundAt operand faces low high e =
      .ok (op.boundAt operand faces low high e) := by
  have hatLow := h.guardedApply_eq hlow
  have hatHigh := h.guardedApply_eq hhigh
  cases e with
  | greatest => simp [guardedBoundAt, boundAt, greatestAt, hatLow, hatHigh]
  | least =>
      simp only [guardedBoundAt, boundAt, leastAt]
      split
      · cases faces with
        | nil => rfl
        | cons face rest =>
            rw [List.forall_mem_cons] at hfaces
            exact h.guardedFirstLeast_eq hfaces.1 hfaces.2
      · simp [hatLow, hatHigh]

end Operator

namespace Reading

/-- The guarded form of the reading that an operator makes. -/
def guardedOperate (op : Operator) (operand : Nat) (r : Reading) :
    Except Fault Reading := do
  let value ← op.guardedApply operand r.value
  return ⟨value, Trace.asOperand r.trace ++ [' ', op.symbol, ' '] ++
    numeral operand⟩

theorem guardedOperate_eq
    {op : Operator} {operand : Nat} {r : Reading}
    (h : op.Fits operand)
    (hr : Limits.Holds r.value) :
    r.guardedOperate op operand = .ok (r.operate op operand) := by
  simp [guardedOperate, operate, h.guardedApply_eq hr]

end Reading

/-! ## Dice -/

namespace Die

/-- The least or the greatest face, where a list of faces must not be empty. -/
def guardedBound : Die → Extreme → Except Fault Int
  | custom faces, .least => faces.min?.elim (.error .noFaces) .ok
  | custom faces, .greatest => faces.max?.elim (.error .noFaces) .ok
  | d, e => .ok (d.bound e)

/-- The face that an answer shows, where the index of a listed face has to lie
inside of the list. -/
def guardedFace : Die → Int → Except Fault Int
  | custom faces, answer =>
      if 0 ≤ answer then faces[answer.toNat]?.elim (.error .noFace) .ok
      else .error .noFace
  | d, answer => .ok (d.face answer)

variable {d : Die}

theorem guardedBound_eq (hd : d.WellFormed) (e : Extreme) :
    d.guardedBound e = .ok (d.bound e) := by
  cases d with
  | custom faces =>
      obtain ⟨face, rest, rfl⟩ := List.exists_cons_of_ne_nil hd.1
      cases e with
      | least => simp [guardedBound, bound, lowest]
      | greatest => simp [guardedBound, bound, highest]
  | _ => rfl

theorem guardedFace_eq
    {n : Int}
    (hlow : d.range.1 ≤ n)
    (hhigh : n ≤ d.range.2) :
    d.guardedFace n = .ok (d.face n) := by
  cases d with
  | custom faces =>
      simp only [range] at hlow hhigh
      have hlt : n.toNat < faces.length := by omega
      simp [guardedFace, face, hlow, List.getElem?_eq_getElem hlt]
  | _ => rfl

theorem holds_face
    {n : Int}
    (hd : d.WellFormed)
    (hlow : d.range.1 ≤ n)
    (hhigh : n ≤ d.range.2) :
    Limits.Holds (d.face n) := by
  cases d with
  | custom faces => exact hd.2.2 _ (face_custom_mem hlow hhigh)
  | _ =>
      simp only [range] at hlow hhigh
      simp only [WellFormed, Limits.Holds, Limits.lowest,
        Limits.highest, face] at *
      omega

end Die

/-! ## Selections -/

namespace Selection

/-- The chosen values, as a slice of the values in ascending order. -/
def guardedChoose (s : Selection) (threshold : Nat) (values : List Int) :
    Except Fault (List Int) :=
  let ranked := ascending values
  let size : Int := ranked.length
  let others := size - threshold
  match s with
  | dropHighest => Machine.slice ranked 0 others
  | dropLowest => Machine.slice ranked threshold size
  | keepHighest => Machine.slice ranked others size
  | keepLowest => Machine.slice ranked 0 threshold

/-- The reading of the chosen values. -/
def guardedReading (s : Selection) (threshold : Nat) (values : List Int) :
    Except Fault Reading := do
  let chosen ← s.guardedChoose threshold values
  let tally ← Tally.zero.addAll chosen
  return tally.reading (chosen.map Reading.ofValue)

theorem guardedChoose_eq
    {threshold : Nat} {values : List Int}
    (s : Selection)
    (h : threshold ≤ values.length) :
    s.guardedChoose threshold values = .ok (s.choose threshold values) := by
  have hlength : (ascending values).length = values.length :=
    (perm_ascending values).length_eq
  have hothers : ((values.length : Int) - threshold).toNat =
      values.length - threshold := by omega
  have hall : (ascending values).take values.length = ascending values := by
    rw [← hlength, List.take_length]
  cases s <;> simp [guardedChoose, choose, Machine.slice, hlength,
    hothers, hall, h]

theorem spares_guardedReading
    {threshold : Nat} {values : List Int}
    (s : Selection)
    (h : threshold ≤ values.length)
    (hvalues : ∀ n ∈ values, Limits.Holds n) :
    Fault.Spares
      (fun r =>
        r = Reading.total ((s.choose threshold values).map Reading.ofValue))
      (s.guardedReading threshold values) := by
  have hchosen : ∀ n ∈ s.choose threshold values, Limits.Holds n := by
    intro n hn
    have hmem := (choose_sublist s threshold values).subset hn
    exact hvalues n ((perm_ascending values).mem_iff.mp hmem)
  simp only [guardedReading, guardedChoose_eq s h]
  apply (Tally.spares_addAll Tally.counts_zero hchosen).bind
  intro t ht
  have hparts : t.Counts (((s.choose threshold values).map
      Reading.ofValue).map Reading.value) := by
    simpa [Function.comp_def, Reading.ofValue] using ht
  exact .ok (Tally.reading_eq_total hparts)

end Selection
end DiceNotation
