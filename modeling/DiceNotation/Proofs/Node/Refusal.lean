import DiceNotation.Proofs.Node.Building

/-!
# Why building is refused

For every way to build a node from inner nodes that are not missing, the causes
for which it can be refused.
-/

namespace DiceNotation

namespace Building

variable {α β : Type} {b : Building α} {E E' : Error → Prop}

/-- From every memory, building is refused for one of these causes, if it is
refused at all. -/
abbrev RefusedFor (b : Building α) (E : Error → Prop) : Prop :=
  AcceptsUnless E b True fun _ => True

theorem AcceptsUnless.mono
    {C : Prop} {R : α → Prop}
    (h : AcceptsUnless E b C R)
    (hE : ∀ e, E e → E' e) :
    AcceptsUnless E' b C R := by
  intro m
  have hm := h m
  cases hout : b.outcome m with
  | ok a =>
      rw [hout] at hm
      exact hm
  | error e =>
      rw [hout] at hm
      exact fun hC => hE e (hm hC)

theorem refusedFor_pure (a : α) : RefusedFor (pure a : Building α) E :=
  accepts_pure trivial trivial

theorem refusedFor_throw
    {e : Error}
    (he : E e) :
    RefusedFor (throw e : Building α) E :=
  fun _ _ => he

theorem refusedFor_evaluation (x : Evaluation α) :
    RefusedFor (x : Building α) E :=
  accepts_evaluation fun _ => trivial

theorem RefusedFor.bind
    {f : α → Building β}
    (hb : b.RefusedFor E)
    (hf : ∀ a, (f a).RefusedFor E) :
    (b >>= f).RefusedFor E :=
  hb.andThen fun a _ => hf a

end Building

namespace Build

open Building

variable {E : Error → Prop}

theorem refusedFor_newNode : newNode.RefusedFor E :=
  refusedFor_evaluation _

theorem refusedFor_die (d : Die) : (die d).RefusedFor E :=
  refusedFor_newNode.bind fun _ => refusedFor_pure _

theorem refusedFor_repeated (node : Node) (count : Int) :
    (repeated node count).RefusedFor fun e =>
      count < 1 ∧ e = .poolTooSmall count ∨
      mostCopies < count ∧ e = .poolTooLarge count := by
  unfold repeated
  split
  · rename_i hlow
    exact refusedFor_throw (Or.inl ⟨hlow, rfl⟩)
  · split
    · rename_i hhigh
      exact refusedFor_throw (Or.inr ⟨hhigh, rfl⟩)
    · exact (refusedFor_evaluation _).bind fun _ =>
        refusedFor_newNode.bind fun _ => refusedFor_pure _

theorem refusedFor_arithmetic
    (inner : Node) (op : Operator) (operand : Int) (tracer : Tracer) :
    (arithmetic (some inner) op operand tracer).RefusedFor fun e =>
      operand < 0 ∧ e = .negativeOperand operand ∨
        op = .divide ∧ operand = 0 ∧ e = .divisionByZero := by
  dsimp only [arithmetic]
  split
  · rename_i hnegative
    exact refusedFor_throw (Or.inl ⟨hnegative, rfl⟩)
  · split
    · rename_i hzero
      exact refusedFor_throw (Or.inr ⟨hzero.1, hzero.2, rfl⟩)
    · exact refusedFor_newNode.bind fun _ => refusedFor_pure _

theorem refusedFor_dropKeep
    (inner : Node) (selection : Selection) (threshold : Int) (tracer : Tracer) :
    (dropKeep (some inner) selection threshold tracer).RefusedFor fun e =>
      inner.members = [] ∧ e = .emptySelection ∨
        threshold < 0 ∧ e = .negativeThreshold threshold ∨
        inner.members.length < threshold ∧
          e = .tooManyChosen threshold.toNat inner.members.length
            inner.render := by
  dsimp only [dropKeep]
  split
  · rename_i hempty
    exact refusedFor_throw (Or.inl ⟨hempty, rfl⟩)
  · split
    · rename_i hnegative
      exact refusedFor_throw (Or.inr (Or.inl ⟨hnegative, rfl⟩))
    · split
      · rename_i hmany
        exact refusedFor_throw (Or.inr (Or.inr ⟨hmany, rfl⟩))
      · exact refusedFor_newNode.bind fun _ => refusedFor_pure _

theorem refusedFor_requireExactBounds (members : List Node) :
    (requireExactBounds members).RefusedFor fun e => e.kind = .endless := by
  induction members with
  | nil => exact refusedFor_pure ()
  | cons member rest ih =>
      rw [requireExactBounds]
      refine (refusedFor_evaluation _).bind fun exact => ?_
      cases exact with
      | true => exact ih
      | false => exact refusedFor_throw rfl

theorem refusedFor_requireEnd
    (comparator : Comparator) (threshold : Option Int)
    (node : Node) (text : Text) :
    (requireEnd comparator threshold node text).RefusedFor fun e =>
      e.kind = .endless := by
  unfold requireEnd
  refine (refusedFor_evaluation _).bind fun low =>
    (refusedFor_evaluation _).bind fun high => ?_
  dsimp only
  split
  · exact refusedFor_throw rfl
  · exact refusedFor_pure ()

theorem refusedFor_requireEnds
    (comparator : Comparator) (threshold : Option Int) (members : List Node) :
    (requireEnds comparator threshold members).RefusedFor fun e =>
      e.kind = .endless := by
  induction members with
  | nil => exact refusedFor_pure ()
  | cons member rest ih =>
      exact (refusedFor_requireEnd _ _ _ _).bind fun _ => ih

theorem refusedFor_explode
    (inner : Node) (comparator : Comparator)
    (threshold : Option Int) (tracer : Tracer) :
    (explode (some inner) comparator threshold tracer).RefusedFor fun e =>
      inner.members = [] ∧ e = .emptyExplosion ∨ e.kind = .endless := by
  dsimp only [explode]
  split
  · rename_i hempty
    exact refusedFor_throw (Or.inl ⟨hempty, rfl⟩)
  · refine refusedFor_newNode.bind fun id => ?_
    refine AcceptsUnless.mono ?_ fun e he => Or.inr he
    exact (refusedFor_requireExactBounds _).bind fun _ =>
      (refusedFor_requireEnd _ _ _ _).bind fun _ =>
        (refusedFor_requireEnds _ _ _).bind fun _ => refusedFor_pure _

end Build
end DiceNotation
