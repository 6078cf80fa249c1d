import DiceNotation.Proofs.Notation.Terms
import DiceNotation.Proofs.Parse.Reads

/-!
# Reading the parts of a written term

A term is read in stages: a group, a selection, an explosion and suffixes.  The
lemmas below say for each stage what it makes of its written form, and that it
passes over a text that does not start with that form.
-/

namespace DiceNotation
namespace Parse

open Building Node

/-- A result of reading that has the given structure, in front of the given
rest. -/
def ReadAs (node : Node) (rest : Text) (p : Node × Text) : Prop :=
  p.1.bare = node ∧ p.2 = rest

section Stages

variable {tracer : Tracer} {whole rest : Text} {node : Node}

/-! ## Groups -/

theorem accepts_dice
    {d : Die} {count : Nat}
    (hd : d.WellFormed)
    (hcount : 1 ≤ count)
    (hrest : NumeralEnds rest) :
    Accepts (dice whole (Summand.counted count d.render ++ rest))
      (count ≤ mostCopies)
      (ReadAs (Term.dice count d).node rest) := by
  by_cases hmost : count ≤ mostCopies
  · rw [dice, countedDie_of_counted hd hcount hmost whole hrest,
      scanned_ok, pure_bind]
    refine (Build.accepts_die d).andThen ?_
    rintro first ⟨id, rfl⟩
    by_cases hone : count = 1
    · rw [if_pos hone]
      refine accepts_pure hmost ⟨?_, rfl⟩
      rw [Term.dice, if_pos hone, bare]
    · rw [if_neg hone]
      have hcopies : 1 ≤ (count : Int) ∧ (count : Int) ≤ mostCopies ↔
          count ≤ mostCopies := by
        omega
      refine ((Build.accepts_repeated _ _).congr hcopies
        fun _ _ h => h).finish _ ?_
      rintro pool ⟨id', ids, hlength, rfl⟩
      refine ⟨?_, rfl⟩
      rw [Term.dice, if_neg hone, bare_pool, List.map_map]
      congr 1
      rw [List.eq_replicate_iff]
      refine ⟨by rw [List.length_map, hlength, Int.toNat_natCast], ?_⟩
      exact List.forall_mem_map.mpr fun _ _ => rfl
  · obtain ⟨fault, hfault⟩ : ∃ fault, countedDie whole
        (Summand.counted count d.render ++ rest) = .error fault :=
      exists_fault_of_counted hmost whole
    rw [dice, hfault, scanned_error]
    exact accepts_throw hmost

theorem group_of_parenthesize
    (expression : Reader Node)
    (s : Text) :
    group whole (some expression) (Text.parenthesize s ++ rest) =
      (do
        let (node, rest) ← expression (s ++ ')' :: rest)
        let (_, rest) ← scanned (expect ')' whole rest)
        return (node, rest)) := by
  rw [Text.parenthesize, List.cons_append, List.cons_append, List.append_assoc]
  rfl

theorem accepts_selected
    {selection : Selection} {threshold : Nat}
    (hthreshold : (threshold : Int) ≤ Limits.highest)
    (hrest : NumeralEnds rest) :
    Accepts (selected tracer node (selection.code ++ numeral threshold ++ rest))
      (node.members ≠ [] ∧ threshold ≤ node.members.length)
      (ReadAs (dropKeep 0 Tracer.silent selection
        threshold node.bare) rest) := by
  rw [selected, List.append_assoc, selection_of_code, scanned_ok, pure_bind]
  dsimp only
  rw [integer_of_number (number_numeral hthreshold) hrest,
    scanned_ok, pure_bind]
  dsimp only
  have hcondition : node.members ≠ [] ∧ 0 ≤ (threshold : Int) ∧
      (threshold : Int) ≤ node.members.length ↔
        node.members ≠ [] ∧ threshold ≤ node.members.length :=
    and_congr_right fun _ => by omega
  refine ((Build.accepts_dropKeep _ _ _ _).congr hcondition
    fun _ _ h => h).finish _ ?_
  rintro result ⟨id, rfl⟩
  exact ⟨by rw [bare]; rfl, rfl⟩

/-- An explosion is read with whatever comparator and threshold follow the
exclamation mark. -/
theorem accepts_exploded
    {more more' : Text} {found : Option Comparator} {threshold : Option Int}
    (hcomparator : comparator more = (found, more'))
    (hthreshold : integer found.isSome more' = .ok (threshold, rest)) :
    Accepts (exploded tracer node ('!' :: more))
      (Explodable (found.getD .equal) threshold node)
      (ReadAs (explode 0 Tracer.silent (found.getD .equal)
        threshold node.bare) rest) := by
  rw [exploded, hcomparator]
  dsimp only
  rw [hthreshold, scanned_ok, pure_bind]
  refine (Build.accepts_explode _ _ _ _).finish _ ?_
  rintro result ⟨id, rfl⟩
  exact ⟨by rw [bare], rfl⟩

end Stages
end Parse
end DiceNotation
