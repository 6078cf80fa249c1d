import DiceNotation.Proofs.Roll.Supply
import DiceNotation.Proofs.Safety.Notation
import DiceNotation.Proofs.Safety.Rolls

/-!
# Evaluations meet no fault

The checks of the constructors are all that evaluations need: no operation of a
bound, a roll or the notation of a constructed node is ever applied outside of
its domain.
-/

namespace DiceNotation
namespace Node

/-- Evaluations of constructed nodes meet no fault.  Bounds with guarded
operations do the same as plain bounds, and so do rolls with any engine that
answers in range, unless a sum gets crowded: no request has an empty range, no
index and no slice lies outside of its list, no least or greatest face is asked
of no faces, every modifier has items to work on, and no division and no
product or sum overflows.  Rolls are only broken off when the engine has no
number left.  The notation is written without a read outside of a pool. -/
theorem evaluation_meets_no_fault
    {node : Node}
    (hnode : Constructed node) :
    (∀ e, Evaluation.Guards Eq (guardedBound node e) (bound node e)) ∧
    (∀ {σ : Type} (engine : Engine σ), engine.InRange →
      Rolling.Guards Eq (guardedRoll engine node) (roll engine node) ∧
        Rolling.NeverEndless (roll engine node)) ∧
    guardedRender node = .ok node.render := by
  have hwellFormed := hnode.wellFormed
  refine ⟨?_, ?_, guardedRender_eq node⟩
  · intro e
    apply (guards_bound hwellFormed e).mono
    intro _ _ h
    exact h.1
  · intro σ engine hengine
    constructor
    · apply (guards_roll hengine hwellFormed).mono
      intro _ _ h
      exact h.1
    · exact neverEndless_roll hengine hwellFormed

/-- The square of an exploding die, rolled as six and then three. -/
theorem exploding_die_squared_meets_no_fault :
    ∃ node, Constructed node ∧ node.render = "D6!^2".toList ∧
      ∃ o u, Rolling.run (ExceptT.run (guardedRoll Engine.script node))
          ⟨Memory.empty, [6, 3], #[]⟩ = (.ok (.ok o), u) ∧
        Rolling.run (roll Engine.script node) ⟨Memory.empty, [6, 3], #[]⟩ =
          (.ok o, u) ∧
        o.value = 81 := by
  have hread : (parse Tracer.silent "D6!^2".toList).Returns
      (arithmetic 2 Tracer.silent .power 2
        (explode 1 Tracer.silent .equal none (die 0 (.sided 6)))) :=
    ⟨Memory.empty, by cbv⟩
  have hnode := (Parse.parsed_of_parse hread).constructed
  have hguards := ((evaluation_meets_no_fault hnode).2.1 Engine.script
    Engine.inRange_script).1 ⟨Memory.empty, [6, 3], #[]⟩
  obtain ⟨o, u, hguarded, hvalue⟩ : ∃ o u,
      Rolling.run
        (ExceptT.run
          (guardedRoll Engine.script (arithmetic 2 Tracer.silent .power 2
            (explode 1 Tracer.silent .equal none (die 0 (.sided 6))))))
        ⟨Memory.empty, [6, 3], #[]⟩ = (.ok (.ok o), u) ∧ o.value = 81 :=
    ⟨_, _, rfl, rfl⟩
  rw [hguarded] at hguards
  exact ⟨_, hnode, rfl, o, u, hguarded, hguards.eq_of_ok, hvalue⟩

end Node
end DiceNotation
