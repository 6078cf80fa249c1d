import DiceNotation.Proofs.Notation.Reparse

/-!
# Reading a written node again

A node that was read from text can be written and read again with the same
bounds, but only under conditions.  No parentheses are written around an
explosion that ends with a comparator, equal dice are gathered under a count,
and sums inside of sums are flattened, although modifiers look at the members
one by one.
-/

namespace DiceNotation
namespace Node

open Building

/-- The node is written in such a way that reading it again is accepted, and
keeps its bounds. -/
structure RoundTrips (node : Node) : Prop where
  legible : node.isLegible = true
  nesting_le : node.render.nesting ≤ deepestNesting
  wellFormed : node.reread.WellFormed
  extreme_eq : ∀ e, node.reread.extreme e = node.extreme e

/-- Two nodes have the same bounds, whatever the memories hold. -/
def SameBounds (n n' : Node) : Prop :=
  ∀ m m', (n.minimum.run m).1 = (n'.minimum.run m').1 ∧
    (n.maximum.run m).1 = (n'.maximum.run m').1

theorem sameBounds_iff {n n' : Node} :
    SameBounds n n' ↔ ∀ e, n.extreme e = n'.extreme e := by
  constructor
  · intro h e
    obtain ⟨hmin, hmax⟩ := h Memory.empty Memory.empty
    cases e with
    | least => exact hmin
    | greatest => exact hmax
  · intro h m m'
    rw [minimum, minimum, maximum, maximum, gives_bound n .least m,
      gives_bound n' .least m', gives_bound n .greatest m,
      gives_bound n' .greatest m', h .least, h .greatest]
    exact ⟨rfl, rfl⟩

/-- The notation of a node that was read from text can be read again, and the
result has the same bounds, exactly if the node round trips. -/
theorem parse_render_sameBounds_iff
    {tracer : Tracer} {text : Text} {node : Node}
    (h : (parse tracer text).Returns node)
    (tracer' : Tracer)
    (m : Memory) :
    (∃ again, (parse tracer' node.render).outcome m = .ok again ∧
      SameBounds again node) ↔
      RoundTrips node := by
  obtain ⟨hconstructed, hplural⟩ := Parse.parsed_of_parse h
  have haccepts := accepts_parse_render hplural hconstructed.wellFormed tracer'
  have hextreme {again : Node} (hagain : again.bare = node.reread)
      (e : Extreme) :
      again.extreme e = node.reread.extreme e := by
    rw [← hagain, extreme_bare]
  constructor
  · rintro ⟨again, hout, hbounds⟩
    obtain ⟨⟨hlegible, hnesting, hwellFormed⟩, hagain⟩ :=
      haccepts.of_returns ⟨m, hout⟩
    refine ⟨hlegible, hnesting, hwellFormed, ?_⟩
    intro e
    rw [← hextreme hagain, sameBounds_iff.mp hbounds]
  · rintro ⟨hlegible, hnesting, hwellFormed, hbounds⟩
    obtain ⟨again, hout, hagain⟩ :=
      haccepts.exists_ok ⟨hlegible, hnesting, hwellFormed⟩ m
    refine ⟨again, hout, sameBounds_iff.mpr ?_⟩
    intro e
    rw [hextreme hagain, hbounds]

/-- An explosion in parentheses is written without them, so that what is
subtracted from it becomes a threshold, which every roll exceeds. -/
theorem not_roundTrips_of_bare_comparator :
    ∃ node, (parse Tracer.silent "(D6!>)-5".toList).Returns node ∧
      node.render = "D6!>-5".toList ∧ ¬RoundTrips node := by
  have hread : (parse Tracer.silent "(D6!>)-5".toList).Returns
      (arithmetic 2 Tracer.silent .subtract 5
        (explode 1 Tracer.silent .greater none (die 0 (.sided 6)))) :=
    ⟨Memory.empty, by cbv⟩
  have hrender : (arithmetic 2 Tracer.silent .subtract 5
      (explode 1 Tracer.silent .greater none (die 0 (.sided 6)))).render =
        "D6!>-5".toList := rfl
  have hrefused : (parse Tracer.silent "D6!>-5".toList).outcome Memory.empty =
      .error (.endlessExplosion "D6!>-5".toList .greater (-5)) := by cbv
  refine ⟨_, hread, hrender, ?_⟩
  rw [← parse_render_sameBounds_iff hread Tracer.silent Memory.empty]
  rintro ⟨again, hagain, -⟩
  rw [hrender, hrefused] at hagain
  cases hagain

end Node
end DiceNotation
