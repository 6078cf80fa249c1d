import DiceNotation.Proofs.Node.Account
import DiceNotation.Proofs.Parse.Constructed
import DiceNotation.Proofs.Roll.Succession
import DiceNotation.Proofs.Selection

/-!
# Selections in bounds and rolls

A selection rolls every member of its inner node once, in order, or it asks
every member for the same bound.  Either way its reading hangs on the multiset
of the values alone, and it sums and lists a best choice among them.
-/

namespace DiceNotation

namespace Selection

/-- A reading that sums and lists a best choice among values, in ascending
order. -/
def Shows (s : Selection) (threshold : Nat) (values : Multiset Int)
    (r : Reading) : Prop :=
  ∃ kept : List Int, kept.Pairwise (· ≤ ·) ∧ s.Best threshold values kept ∧
    r.value = clamp kept.sum ∧
    r.trace = Trace.join (kept.map fun n => Trace.asSummand (numeral n))

/-- The chosen values are summed up and listed. -/
theorem shows_choose
    {values : List Int} {threshold : Nat}
    (s : Selection)
    (h : threshold ≤ values.length) :
    s.Shows threshold values
      (Reading.total ((s.choose threshold values).map Reading.ofValue)) := by
  refine ⟨s.choose threshold values, pairwise_choose s threshold values,
    best_choose s h, ?_, ?_⟩
  · exact Reading.value_total_ofValue _
  · simp [Reading.total, Reading.ofValue, Function.comp_def]

end Selection

namespace Node

/-- A selection chooses by rank.  Its reading is a function of the multiset of
the values of the members, and it shows a best choice among these: as many of
them as the selection keeps, with the greatest or the least sum of all such
choices.  The values are the bounds of the members if a bound is asked for.  In
a roll, they are those of one roll of each member, in order, and the engine is
asked for nothing else. -/
theorem selection_by_rank
    {node : NodeId} {tracer : Tracer} {selection : Selection}
    {threshold : Nat} {inner : Node}
    (hnode : Constructed (dropKeep node tracer selection threshold inner)) :
    ∃ reading : Multiset Int → Reading,
      (∀ values, values.card = inner.members.length →
        selection.Shows threshold values (reading values)) ∧
      (∀ (e : Extreme) (m m' : Memory),
        let values :=
          inner.members.map fun member => ((member.bound e).run m').1
        let bounded :=
          (bound (dropKeep node tracer selection threshold inner) e).run m
        (⟨bounded.1, bounded.2.trace node⟩ : Reading) = reading values) ∧
      ∀ {σ : Type} (engine : Engine σ) (t u : Table σ) (o : Outcome),
        Rolling.run
            (roll engine (dropKeep node tracer selection threshold inner)) t =
          (.ok o, u) →
          ∃ rolls : List Performed, rolls.map Performed.node = inner.members ∧
            Succession engine t.source rolls u.source ∧
            u.requests.toList = t.requests.toList ++
              rolls.flatMap Performed.requests ∧
            o.toReading = reading (rolls.map fun p => p.reading.value) := by
  obtain ⟨-, -, hthreshold, -⟩ := wellFormed_dropKeep_iff.mp hnode.wellFormed
  have hreading (values : List Int) :
      selection.choose threshold (values : Multiset Int).toList =
        selection.choose threshold values :=
    selection.choose_eq_of_perm threshold
      (Multiset.coe_eq_coe.mp (Multiset.coe_toList _))
  refine ⟨fun values =>
    Reading.total ((selection.choose threshold values.toList).map
      Reading.ofValue), ?_, ?_, ?_⟩
  · intro values hcard
    have hlength : threshold ≤ values.toList.length := by
      rw [Multiset.length_toList, hcard]
      exact hthreshold
    have hshows := selection.shows_choose hlength
    rwa [Multiset.coe_toList] at hshows
  · intro e m m' values bounded
    have hvalues : values = inner.members.map fun member => member.extreme e :=
      List.map_congr_left fun member _ => gives_bound member e m'
    obtain ⟨hvalue, htrace⟩ :=
      run_bound (dropKeep node tracer selection threshold inner) e m
    have haccount : (⟨bounded.1, bounded.2.trace node⟩ : Reading) =
        (dropKeep node tracer selection threshold inner).account e := by
      rw [Reading.mk.injEq]
      exact ⟨hvalue, htrace⟩
    simp only [haccount, account, hreading, hvalues]
  · intro σ engine t u o hrun
    rw [roll_dropKeep] at hrun
    obtain ⟨os, opened, closed, heach, hchosen, hperforms⟩ :=
      performs_settle hrun
    obtain ⟨rolls, hnodes, hrolls⟩ := performs_rollEach heach
    have hall := hperforms _ hrolls
    refine ⟨rolls, hnodes, hall.succession, hall.requests, ?_⟩
    have hvalues :
        os.map (fun o => o.value) = rolls.map fun p => p.reading.value := by
      simpa [Function.comp_def]
        using congrArg (List.map Reading.value) hall.readings
    simp only [hchosen, totalChosen, hreading, hvalues]

/-- The two lowest of four dice, rolled as five, minus two and twice three. -/
theorem two_lowest_of_four_dice :
    ∃ node, Constructed node ∧ node.render = "4D[-2,3,5]KL2".toList ∧
      ∃ o u,
        Rolling.run (roll Engine.script node)
          ⟨Memory.empty, [2, 0, 1, 1], #[]⟩ = (.ok o, u) ∧
        o.trace = "(-2) + 3".toList ∧
        ∃ values : Multiset Int, values.card = 4 ∧
          Selection.keepLowest.Shows 2 values o.toReading := by
  have hread : (parse Tracer.silent "4D[-2,3,5]KL2".toList).Returns
      (dropKeep 6 Tracer.silent .keepLowest 2
        (pool 5 [die 1 (.custom [-2, 3, 5]), die 2 (.custom [-2, 3, 5]),
          die 3 (.custom [-2, 3, 5]), die 4 (.custom [-2, 3, 5])])) :=
    ⟨Memory.empty, by cbv⟩
  have hnode := (Parse.parsed_of_parse hread).constructed
  obtain ⟨reading, hshows, -, hrolled⟩ := selection_by_rank hnode
  have hroll : Rolling.run (roll Engine.script
      (dropKeep 6 Tracer.silent .keepLowest 2
        (pool 5 [die 1 (.custom [-2, 3, 5]), die 2 (.custom [-2, 3, 5]),
          die 3 (.custom [-2, 3, 5]), die 4 (.custom [-2, 3, 5])])))
      ⟨Memory.empty, [2, 0, 1, 1], #[]⟩ = _ := rfl
  obtain ⟨rolls, hnodes, -, -, hreading⟩ := hrolled Engine.script _ _ _ hroll
  have hcard : Multiset.card
      (rolls.map fun p => p.reading.value : Multiset Int) = 4 := by
    have hlength := congrArg List.length hnodes
    simpa [members] using hlength
  have hvalues := hshows _ hcard
  rw [← hreading] at hvalues
  exact ⟨_, hnode, by rfl, _, _, hroll, by cbv, _, hcard, hvalues⟩

end Node
end DiceNotation
