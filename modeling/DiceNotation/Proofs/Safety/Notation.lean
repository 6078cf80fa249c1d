import DiceNotation.Proofs.Safety.Machine

/-!
# Guarded notation

Writing a node reads the items of pools by their index, to count runs of the
same die, and it looks at the first item to see how tightly a pool holds
together.  With guarded reads, every node is still written.
-/

namespace DiceNotation

namespace Summand

/-- The summand at a place, which has to lie inside of the list. -/
def guardedAt (summands : List Summand) (i : Nat) : Except Fault Summand :=
  summands[i]?.elim (.error .outside) .ok

/-- The length of the run of a die that starts at a place. -/
def guardedRun (summands : List Summand) (die : Option Die) (i : Nat) :
    Except Fault Nat :=
  if i < summands.length then do
    let next ← guardedAt summands i
    if next.die = die then
      let more ← guardedRun summands die (i + 1)
      return more + 1
    else
      return 0
  else
    return 0
termination_by summands.length - i

/-- The texts of the summands from a place on, with a single text for a run of
the same die. -/
def guardedCollapse (summands : List Summand) (i : Nat) :
    Except Fault (List Text) :=
  if i < summands.length then do
    let first ← guardedAt summands i
    let more ← if first.die.isSome then guardedRun summands first.die (i + 1)
      else .ok 0
    let rest ← guardedCollapse summands (i + 1 + more)
    return counted (1 + more) first.text :: rest
  else
    return []
termination_by summands.length - i

variable {summands : List Summand} {i : Nat}

theorem guardedAt_eq (h : i < summands.length) :
    guardedAt summands i = .ok summands[i] := by
  simp [guardedAt, List.getElem?_eq_getElem h]

theorem guardedRun_eq (summands : List Summand) (die : Option Die) (i : Nat) :
    guardedRun summands die i =
      .ok ((summands.drop i).takeWhile fun next => next.die = die).length := by
  induction hleft : summands.length - i generalizing i with
  | zero =>
      have hend : summands.length ≤ i := by omega
      rw [guardedRun, if_neg hend.not_gt, List.drop_eq_nil_of_le hend]
      rfl
  | succ left ih =>
      have hlt : i < summands.length := by omega
      have hrest := ih (i + 1) (by omega)
      rw [guardedRun, if_pos hlt, guardedAt_eq hlt,
        List.drop_eq_getElem_cons hlt, List.takeWhile_cons]
      by_cases hsame : summands[i].die = die
      · simp [hsame, hrest]
      · simp [hsame]

/-- A run of the same die ends where the next summand is another one. -/
theorem collapseAfter_eq_takeWhile
    (first : Summand) (count : Nat) (rest : List Summand)
    (h : first.die.isSome) :
    collapseAfter first count rest =
      counted (count + (rest.takeWhile fun next => next.die = first.die).length)
        first.text ::
          collapse
            (rest.drop
              (rest.takeWhile fun next => next.die = first.die).length) := by
  induction rest generalizing count with
  | nil => rfl
  | cons next rest ih =>
      by_cases hsame : next.die = first.die
      · simp [collapseAfter, h, hsame, ih, Nat.add_assoc, Nat.add_comm 1]
      · simp [collapseAfter, hsame, collapse]

theorem collapseAfter_of_not_isSome
    (first : Summand) (count : Nat) (rest : List Summand)
    (h : first.die.isSome = false) :
    collapseAfter first count rest =
      counted count first.text :: collapse rest := by
  cases rest with
  | nil => rfl
  | cons next rest => simp [collapseAfter, h, collapse]

theorem guardedCollapse_eq (summands : List Summand) (i : Nat) :
    guardedCollapse summands i = .ok (collapse (summands.drop i)) := by
  induction hleft : summands.length - i
    using Nat.strong_induction_on generalizing i with
  | _ left ih =>
      by_cases hlt : i < summands.length
      · have hnext (more : Nat) := ih _ (by omega) (i + 1 + more) rfl
        rw [guardedCollapse, if_pos hlt, guardedAt_eq hlt,
          List.drop_eq_getElem_cons hlt, collapse]
        by_cases hdie : summands[i].die.isSome = true
        · simp [hdie, guardedRun_eq, hnext, collapseAfter_eq_takeWhile,
            List.drop_drop]
        · rw [Bool.not_eq_true] at hdie
          simp [hdie, hnext, collapseAfter_of_not_isSome]
      · rw [guardedCollapse, if_neg hlt, List.drop_eq_nil_of_le (by omega)]
        rfl

end Summand

namespace Node

/-- The first of the items, of which there has to be one. -/
def guardedFront : List Node → Except Fault Node
  | [] => .error .outside
  | item :: _ => .ok item

mutual

/-- How tightly the written node holds together, found by guarded reads. -/
def guardedBinding : Node → Except Fault Binding
  | die _ _ => .ok .group
  | dropKeep _ _ _ _ _ => .ok .select
  | explode _ _ _ _ _ => .ok .explode
  | arithmetic _ _ _ _ _ => .ok .arithmetic
  | pool _ items =>
      if items.length = 0 then
        .ok .group
      else if items.length = 1 then
        guardedFrontBinding items
      else do
        let first ← guardedFront items
        let same :=
          first.die?.isSome && items.all fun item => item.die? = first.die?
        return if same then .group else .sum

/-- How tightly the first of the items holds together. -/
def guardedFrontBinding : List Node → Except Fault Binding
  | [] => .error .outside
  | item :: _ => guardedBinding item

end

mutual

/-- The node as a dice expression, written by guarded reads. -/
def guardedRender : Node → Except Fault Text
  | die _ d => .ok d.render
  | pool _ items => do
      let texts ← Summand.guardedCollapse (← guardedSummands items) 0
      return ['+'].intercalate (texts.dropWhile List.isEmpty)
  | arithmetic _ _ op operand inner => do
      let text ← guardedRender inner
      let binding ← guardedBinding inner
      let enclosed :=
        if binding = .sum ∨ 2 ≤ inner.chainLength then Text.parenthesize text
        else text
      return enclosed ++ op.symbol :: numeral operand
  | dropKeep _ _ selection threshold inner => do
      let text ← guardedRender inner
      let binding ← guardedBinding inner
      return encloseAt .select binding text ++ selection.code ++
        numeral threshold
  | explode _ _ comparator threshold inner => do
      let text ← guardedRender inner
      let binding ← guardedBinding inner
      return encloseAt .explode binding text ++ '!' ::
        match threshold with
        | none => if comparator = .equal then [] else [comparator.symbol]
        | some t => comparator.symbol :: numeral t

/-- Nodes as the summands of a written sum, written by guarded reads. -/
def guardedSummands : List Node → Except Fault (List Summand)
  | [] => .ok []
  | item :: rest => do
      let text ← guardedRender item
      let summands ← guardedSummands rest
      return ⟨item.die?, text⟩ :: summands

end

theorem guardedBinding_eq (node : Node) :
    guardedBinding node = .ok node.binding := by
  induction node using induction_members with
  | pool id items ih =>
      match items with
      | [] => rfl
      | [item] => simpa [guardedBinding, guardedFrontBinding, binding] using ih
      | first :: second :: rest => simp [guardedBinding, guardedFront, binding]
  | _ => simp [guardedBinding, binding]

theorem guardedSummands_eq
    {items : List Node}
    (h : ∀ item ∈ items, guardedRender item = .ok item.render) :
    guardedSummands items = .ok (summands items) := by
  induction items with
  | nil => rfl
  | cons item rest ih =>
      rw [List.forall_mem_cons] at h
      simp [guardedSummands, summands, h.1, ih h.2]

/-- Every node is written, and no read falls outside of a pool. -/
theorem guardedRender_eq (node : Node) :
    guardedRender node = .ok node.render := by
  induction node using induction_members with
  | die id d => rfl
  | pool id items ih =>
      have htexts := Summand.guardedCollapse_eq (summands items) 0
      simp [guardedRender, render, Summand.join, guardedSummands_eq ih, htexts]
  | arithmetic id tracer op operand inner ih =>
      simp [guardedRender, render, ih, guardedBinding_eq]
  | dropKeep id tracer selection threshold inner ih _ =>
      simp [guardedRender, render, ih, guardedBinding_eq]
  | explode id tracer comparator threshold inner ih _ =>
      cases threshold <;> simp [guardedRender, render, ih, guardedBinding_eq]

end Node
end DiceNotation
