import DiceNotation.Proofs.Node.Constructed
import DiceNotation.Proofs.Operator
import DiceNotation.Proofs.Trace.Expression

/-!
# Saturating arithmetic

The result of an operator is its exact result, clamped to the range of values.
Quotients need no clamping, and the loop that computes a power may leave at the
first product that is no value: from there on no product is one, and the limit
on the side of the exact power is its nearest value.  So bounds, which are
results of operators and sums, are values.
-/

namespace DiceNotation

/-- The end of the range of values on the side of an integer. -/
def Limits.onSideOf (n : Int) : Int :=
  if n < 0 then lowest else highest

/-- What is no value is clamped to the limit on its side. -/
theorem clamp_eq_ite (n : Int) :
    clamp n = if Limits.Holds n then n else Limits.onSideOf n := by
  simp only [clamp, Limits.onSideOf, Limits.Holds, Limits.lowest,
    Limits.highest]
  omega

namespace Operator

variable {op : Operator} {operand : Nat} {value n : Int}

theorem exists_exact
    (h : ¬(op = .divide ∧ operand = 0))
    (value : Int) :
    ∃ n, op.exact value operand = some n := by
  cases op with
  | divide =>
      have hne : ¬(operand : Int) = 0 :=
        fun hzero => h ⟨rfl, Int.natCast_eq_zero.mp hzero⟩
      exact ⟨_, if_neg hne⟩
  | power =>
      refine ⟨value ^ operand, ?_⟩
      rw [exact, if_neg (Int.natCast_nonneg operand).not_gt, Int.toNat_natCast]
  | _ => exact ⟨_, rfl⟩

/-- The operand value of a bound is one of the values it is chosen from. -/
theorem holds_boundAt
    {faces : List Int} {low high : Int}
    (hfaces : ∀ face ∈ faces, Limits.Holds face)
    (hlow : Limits.Holds low)
    (hhigh : Limits.Holds high)
    (e : Extreme) :
    Limits.Holds (op.boundAt operand faces low high e) := by
  cases e with
  | greatest =>
      simp only [boundAt, greatestAt]
      split
      · exact hhigh
      · exact hlow
  | least =>
      simp only [boundAt, leastAt]
      split
      · cases faces with
        | nil => exact (by decide : Limits.Holds 0)
        | cons face rest => exact hfaces _ (firstLeast_mem _ face rest)
      · split
        · exact hlow
        · exact hhigh

/-- A quotient is nearer to zero than the dividend. -/
theorem holds_tdiv
    (h : Limits.Holds value)
    (operand : Nat) :
    Limits.Holds (value.tdiv operand) := by
  have hnonneg := Int.natCast_nonneg operand
  simp only [Limits.Holds, Limits.lowest, Limits.highest] at *
  by_cases hsign : 0 ≤ value
  · have hlow := Int.tdiv_nonneg hsign hnonneg
    have hhigh := Int.tdiv_le_self (operand : Int) hsign
    omega
  · have hlow := Int.tdiv_nonneg (by omega : 0 ≤ -value) hnonneg
    have hhigh := Int.tdiv_le_self (operand : Int) (by omega : 0 ≤ -value)
    rw [Int.neg_tdiv] at hlow hhigh
    omega

theorem exact_divide
    (h : divide.exact value operand = some n) :
    n = value.tdiv operand := by
  simp only [exact] at h
  split at h
  · cases h
  · exact (Option.some.inj h).symm

theorem exact_power
    (h : power.exact value operand = some n) :
    n = value ^ operand := by
  simp only [exact, if_neg (Int.natCast_nonneg operand).not_gt,
    Int.toNat_natCast] at h
  exact (Option.some.inj h).symm

/-- The operator clamps its exact result. -/
theorem apply_eq_clamp
    (hexact : op.exact value operand = some n)
    (hvalue : Limits.Holds value) :
    op.apply operand value = clamp n := by
  cases op with
  | divide =>
      rw [exact_divide hexact, clamp_of_holds (holds_tdiv hvalue operand)]
      rfl
  | power => rw [exact_power hexact, apply_power]
  | _ =>
      cases hexact
      rfl

/-- If its exact result is a value, the operator gives this result. -/
theorem apply_eq_of_holds
    (hexact : op.exact value operand = some n)
    (hn : Limits.Holds n) :
    op.apply operand value = n := by
  cases op with
  | divide =>
      rw [exact_divide hexact]
      rfl
  | power =>
      rw [exact_power hexact, apply_power, ← exact_power hexact,
        clamp_of_holds hn]
  | _ =>
      cases hexact
      exact clamp_of_holds hn

/-- The loop of a power, with the limit on the side of the exact power as its
exit, computes the power. -/
theorem apply_power_eq_powerFrom
    (hbase : 2 ≤ |value|)
    (operand : Nat) :
    power.apply operand value =
      powerFrom value (Limits.onSideOf (value ^ operand)) operand 1 := by
  rw [apply_power, clamp_eq_ite,
    powerFrom_eq hbase _ operand (by decide), one_mul]

end Operator

namespace Node

theorem holds_of_mem_listedFaces
    {node : Node} {face : Int}
    (h : node.WellFormed)
    (hface : face ∈ node.listedFaces) :
    Limits.Holds face := by
  cases h with
  | @die id d hd =>
      cases d with
      | sided sides => cases hface
      | custom faces => exact hd.2.2 face hface
      | fudge =>
          have hfaces : face = -1 ∨ face = 0 ∨ face = 1 := by
            simpa [listedFaces, Die.listedFaces] using hface
          rcases hfaces with rfl | rfl | rfl <;> decide
  | _ => cases hface

/-- The bounds of a well-formed node are values. -/
theorem holds_extreme
    {node : Node}
    (h : node.WellFormed)
    (e : Extreme) :
    Limits.Holds (node.extreme e) := by
  induction h generalizing e with
  | @die id d hd =>
      cases d with
      | sided sides =>
          have hsides := hd
          simp only [Die.WellFormed, Limits.highest] at hsides
          rw [extreme_die]
          cases e with
          | least => exact (by decide : Limits.Holds 1)
          | greatest =>
              simp only [Die.bound, Die.highest, Limits.Holds, Limits.lowest,
                Limits.highest]
              omega
      | custom faces =>
          exact hd.2.2 _ (Die.bound_mem_listedFaces (d := .custom faces) hd.1 e)
      | fudge =>
          cases e with
          | least => exact (by decide : Limits.Holds (-1))
          | greatest => exact (by decide : Limits.Holds 1)
  | pool =>
      rw [extreme_pool]
      exact clamp_holds _
  | @arithmetic id tracer op operand inner hinner _ hdivide ih =>
      have hstart : Limits.Holds
          (op.boundAt operand inner.listedFaces (inner.extreme .least)
            (inner.extreme .greatest) e) :=
        Operator.holds_boundAt
          (fun face hface => holds_of_mem_listedFaces hinner hface)
          (ih .least) (ih .greatest) e
      obtain ⟨n, hn⟩ := Operator.exists_exact hdivide _
      rw [extreme_arithmetic, Operator.apply_eq_clamp hn hstart]
      exact clamp_holds n
  | dropKeep =>
      rw [extreme_dropKeep]
      exact clamp_holds _
  | explode =>
      cases e with
      | least =>
          rw [extreme_explode_least]
          exact clamp_holds _
      | greatest =>
          rw [extreme_explode_greatest]
          decide

/-- The operator of an arithmetic modifier makes of every value its exact
result, clamped.  For a power this means that the exact power is the result if
it is a value, the lowest one included, and else the limit on its side.  The
loop of products leaves early, with whatever exit value, exactly if the exact
power is no value. -/
theorem arithmetic_saturates
    {id : NodeId} {tracer : Tracer} {op : Operator}
    {operand : Nat} {inner : Node}
    (hnode : Constructed (arithmetic id tracer op operand inner))
    {value : Int}
    (hvalue : Limits.Holds value) :
    (∃ n, op.exact value operand = some n ∧ op.apply operand value = clamp n) ∧
      (op = .power →
        (Limits.Holds (value ^ operand) →
          op.apply operand value = value ^ operand) ∧
        (value ^ operand < Limits.lowest →
          op.apply operand value = Limits.lowest) ∧
        (Limits.highest < value ^ operand →
          op.apply operand value = Limits.highest) ∧
        (2 ≤ |value| →
          op.apply operand value =
            Operator.powerFrom value
              (Limits.onSideOf (value ^ operand)) operand 1 ∧
          ∀ exit, Operator.powerFrom value exit operand 1 =
            if Limits.Holds (value ^ operand) then value ^ operand
              else exit)) := by
  obtain ⟨-, -, hdivide⟩ := wellFormed_arithmetic_iff.mp hnode.wellFormed
  constructor
  · obtain ⟨n, hn⟩ := Operator.exists_exact hdivide value
    exact ⟨n, hn, Operator.apply_eq_clamp hn hvalue⟩
  · rintro rfl
    refine ⟨?_, ?_, ?_, ?_⟩
    · intro hholds
      rw [Operator.apply_power, clamp_of_holds hholds]
    · intro hlow
      rw [Operator.apply_power, clamp_of_lt_lowest hlow]
    · intro hhigh
      rw [Operator.apply_power, clamp_of_highest_lt hhigh]
    · intro hbase
      refine ⟨Operator.apply_power_eq_powerFrom hbase operand, ?_⟩
      intro exit
      rw [Operator.powerFrom_eq hbase exit operand (by decide), one_mul]

/-- The thirty-first power of minus two is the lowest value, and that of minus
three is below the range. -/
theorem thirty_first_powers :
    Constructed (arithmetic 1 Tracer.silent .power 31 (die 0 .fudge)) ∧
      Operator.power.apply 31 (-2) = (-2) ^ 31 ∧ Limits.Holds ((-2) ^ 31) ∧
      Operator.power.apply 31 (-3) = Limits.lowest := by
  have hdie : (Build.die .fudge).Returns (die 0 .fudge) := ⟨Memory.empty, rfl⟩
  have hpower :
      (Build.arithmetic (some (die 0 .fudge)) .power 31 Tracer.silent).Returns
        (arithmetic 1 Tracer.silent .power 31 (die 0 .fudge)) :=
    ⟨⟨1, Traces.none, #[]⟩, rfl⟩
  have hnode :=
    Constructed.arithmetic (.fudge hdie) (by decide : Limits.Holds 31) hpower
  have hholds : Limits.Holds ((-2) ^ 31) := by decide
  have htwo :=
    (arithmetic_saturates hnode (by decide : Limits.Holds (-2))).2 rfl
  have hthree :=
    (arithmetic_saturates hnode (by decide : Limits.Holds (-3))).2 rfl
  exact ⟨hnode, htwo.1 hholds, hholds, hthree.2.1 (by decide)⟩

end Node
end DiceNotation
