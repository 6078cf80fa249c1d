import DiceNotation.Proofs.Roll.Structure

/-!
# Pools of copies

The copies of a node in a pool share everything below the node, and still they
are rolled independently of each other: a roll of the pool is a sequence of
rolls of the node, with the same requests, and it is broken off where that
sequence is.

Copies have the structure of the original.  So each of them is rolled as the
original would be, from the state in which the engine is left by the copy
before.
-/

namespace DiceNotation

variable {σ : Type}

/-- What happens next, from tables on the same course. -/
theorem SameCourse.extend
    {since since' : Array (Int × Int)} {t t' u u' : Table σ}
    (h : SameCourse since since' t u)
    (hnext : SameCourse t.requests u.requests t' u') :
    SameCourse since since' t' u' where
  source := hnext.source
  requests := by
    obtain ⟨made, ht, hu⟩ := h.requests
    obtain ⟨more, ht', hu'⟩ := hnext.requests
    refine ⟨made ++ more, ?_, ?_⟩
    · rw [ht', ht, Array.append_assoc]
    · rw [hu', hu, Array.append_assoc]

/-- The outcome adds up the values of other outcomes, and its trace joins their
traces. -/
structure Outcome.SumsUp (o : Outcome) (parts : List Outcome) : Prop where
  value : o.value = clamp (parts.map fun part => part.value).sum
  trace :
    o.trace = Trace.join (parts.map fun part => Trace.asSummand part.trace)

namespace Rolling

variable {α : Type} {since since' : Array (Int × Int)}

/-- Settling the trace of a node concerns only the memory. -/
theorem agrees_settle_left
    {R : Outcome → α → Prop} {x : Rolling σ Outcome} {y : Rolling σ α}
    (h : Agrees since since' R x y)
    (node : NodeId) :
    Agrees since since' R (settle node x) y := by
  intro t u hcourse
  have hsettle := run_settle node x t
  generalize hopened :
    ({ t with memory.traces := t.memory.traces.set node [] } : Table σ) =
      opened at hsettle
  have hopen : SameCourse since since' opened u := by
    rw [← hopened]
    exact ⟨hcourse.source, hcourse.requests⟩
  obtain ⟨hagree, hsame⟩ := h hopen
  change Agree R (run x opened).1 _ at hagree
  change SameCourse since since' (run x opened).2 _ at hsame
  change Agree R (run (settle node x) t).1 _ ∧
    SameCourse since since' (run (settle node x) t).2 _
  rw [hsettle]
  rcases hrun : run x opened with ⟨e | o, v⟩
  · rw [hrun] at hagree hsame
    exact ⟨hagree, hsame⟩
  · rw [hrun] at hagree hsame
    exact ⟨hagree, hsame.source, hsame.requests⟩

end Rolling

namespace Node

open Rolling

variable {since since' : Array (Int × Int)} {node node' : Node}

/-- Rolls the node again and again, as often as said. -/
def rollTimes (engine : Engine σ) (node : Node) : Nat → Rolling σ (List Outcome)
  | 0 => return []
  | times + 1 => do
      let o ← roll engine node
      let outcomes ← rollTimes engine node times
      return o :: outcomes

theorem agrees_roll_of_bare_eq
    (engine : Engine σ)
    (hnode : node.bare = node'.bare) :
    Agrees since since' SameReading (roll engine node) (roll engine node') := by
  intro t t' hcourse
  obtain ⟨hagree, hsame⟩ := agree_of_bare_eq engine hnode hcourse.source
  refine ⟨hagree.mono ?_, hcourse.extend hsame⟩
  rintro _ _ ⟨r, rfl, rfl⟩
  rfl

/-- Copies that are rolled from left to right, and as many rolls of the
original. -/
theorem agrees_rollEach_copies (engine : Engine σ) (node : Node)
    (ids : List NodeId) :
    Agrees since since'
      (fun os os' => SameReadings os os' ∧ os'.length = ids.length)
      (rollEach engine (ids.map fun id => node.withId id))
      (rollTimes engine node ids.length) := by
  induction ids with
  | nil => exact .pure ⟨rfl, rfl⟩
  | cons id ids ih =>
      rw [List.map_cons, rollEach, List.length_cons, rollTimes]
      refine (agrees_roll_of_bare_eq engine (bare_withId node id)).bind ?_
      intro o o' ho
      refine ih.bind ?_
      rintro os os' ⟨hos, hlength⟩
      refine .pure ⟨?_, ?_⟩
      · rw [SameReadings, List.map_cons, List.map_cons, ho, hos]
      · rw [List.length_cons, hlength]

theorem sumsUp_totalOf
    {os os' : List Outcome}
    (h : SameReadings os os')
    (node : Node) :
    (node.outcome .roll (totalOf os)).SumsUp os' := by
  have htotal : totalOf os = totalOf os' := congrArg Reading.total h
  rw [htotal]
  constructor
  · change (Reading.total (os'.map Outcome.toReading)).value = _
    rw [Reading.value_total, List.map_map]
    rfl
  · change Trace.join ((os'.map Outcome.toReading).map _) = _
    rw [List.map_map]
    rfl

theorem agrees_roll_copies
    (engine : Engine σ) (node : Node) (id : NodeId) (ids : List NodeId) :
    Agrees since since' (fun o os => o.SumsUp os ∧ os.length = ids.length)
      (roll engine (pool id (ids.map fun id => node.withId id)))
      (rollTimes engine node ids.length) := by
  rw [roll, ← bind_pure (rollTimes engine node ids.length)]
  refine agrees_settle_left ?_ id
  refine (agrees_rollEach_copies engine node ids).bind ?_
  rintro os os' ⟨hos, hlength⟩
  exact .pure ⟨sumsUp_totalOf hos _, hlength⟩

theorem extreme_copies (node : Node) (e : Extreme) (id : NodeId)
    (ids : List NodeId) :
    (pool id (ids.map fun id => node.withId id)).extreme e =
      clamp (ids.length * node.extreme e) := by
  have hcopy (id : NodeId) : (node.withId id).extreme e = node.extreme e := by
    rw [← extreme_bare, bare_withId, extreme_bare]
  rw [extreme_pool, List.map_map, Function.comp_def]
  simp only [hcopy]
  rw [List.map_const', List.sum_replicate, nsmul_eq_mul]

/-- From 1 up to 1000 copies of a node can be put into a pool.  A roll of the
pool makes the requests of as many rolls of the node, whatever the memory holds,
and it leaves the engine in the same state, also if it is broken off.  It comes
to the sum of their values and joins their traces, and the bounds of the pool
are multiples of those of the node. -/
theorem replicated_rolls
    (node : Node) (count : Int)
    (hlow : 1 ≤ count)
    (hhigh : count ≤ 1000)
    (m : Memory) :
    ∃ copies, (Build.repeated node count).outcome m = .ok copies ∧
      (∀ {σ : Type} (engine : Engine σ) (t t' : Table σ), t.source = t'.source →
        Agree (fun o os => o.SumsUp os ∧ os.length = count)
            (run (roll engine copies) t).1
            (run (rollTimes engine node count.toNat) t').1 ∧
          SameCourse t.requests t'.requests (run (roll engine copies) t).2
            (run (rollTimes engine node count.toNat) t').2) ∧
      ∀ e before after,
        ((copies.bound e).run after).1 =
          clamp (count * ((node.bound e).run before).1) := by
  have hbuilt := Build.accepts_repeated node count m
  cases hout : (Build.repeated node count).outcome m with
  | error e =>
      rw [hout] at hbuilt
      exact absurd ⟨hlow, hhigh⟩ hbuilt
  | ok copies =>
      rw [hout] at hbuilt
      obtain ⟨-, id, ids, hids, rfl⟩ := hbuilt
      have hcount : (ids.length : Int) = count := by omega
      refine ⟨_, rfl, ?_, ?_⟩
      · intro σ engine t t' hsource
        rw [← hids, ← hcount]
        obtain ⟨hagree, hsame⟩ :=
          agrees_roll_copies engine node id ids (.refl hsource)
        refine ⟨hagree.mono ?_, hsame⟩
        rintro o os ⟨hsums, hlength⟩
        exact ⟨hsums, by rw [hlength]⟩
      · intro e before after
        rw [gives_bound _ e after, gives_bound node e before,
          extreme_copies, hcount]

/-- Two copies of an exploding die, the first of which explodes.  Both copies
roll the same inner die. -/
theorem exploding_die_replicated :
    ∃ copies,
      (Build.repeated
        (explode 1 Tracer.silent .equal none (die 0 (.sided 6))) 2).outcome
        ⟨2, Traces.none, #[]⟩ = .ok copies ∧
      (copies.minimum.run Memory.empty).1 = 2 ∧
      ∃ o u,
        run (roll Engine.script copies) ⟨Memory.empty, [6, 2, 5], #[]⟩ =
          (.ok o, u) ∧
        o.value = 13 ∧ o.trace = "(6 + 2) + 5".toList ∧ u.source = [] := by
  obtain ⟨copies, hbuilt, hrolls, hbounds⟩ := replicated_rolls
    (explode 1 Tracer.silent .equal none (die 0 (.sided 6))) 2
    (by decide) (by decide)
    ⟨2, Traces.none, #[]⟩
  obtain ⟨hagree, hsame⟩ := hrolls Engine.script ⟨Memory.empty, [6, 2, 5], #[]⟩
    ⟨Memory.empty, [6, 2, 5], #[]⟩ rfl
  obtain ⟨os, v, htimes, hvalues, htraces, hsource⟩ : ∃ os v,
      run (rollTimes Engine.script
        (explode 1 Tracer.silent .equal none (die 0 (.sided 6))) 2)
          ⟨Memory.empty, [6, 2, 5], #[]⟩ = (.ok os, v) ∧
        os.map (fun o => o.value) = [8, 5] ∧
        os.map (fun o => Trace.asSummand o.trace) =
          ["(6 + 2)".toList, "5".toList] ∧
        v.source = [] := ⟨_, _, rfl, rfl, rfl, rfl⟩
  refine ⟨copies, hbuilt, hbounds .least Memory.empty Memory.empty, ?_⟩
  change Agree _ _ (run (rollTimes _ _ 2) _).1 at hagree
  change SameCourse _ _ _ (run (rollTimes _ _ 2) _).2 at hsame
  rw [htimes] at hagree hsame
  rcases hrun : run (roll Engine.script copies) ⟨Memory.empty, [6, 2, 5],
    #[]⟩ with ⟨e | o, u⟩
  · rw [hrun] at hagree
    cases hagree
  · rw [hrun] at hagree hsame
    cases hagree with
    | ok hsums =>
        refine ⟨o, u, rfl, ?_, ?_, hsame.source.trans hsource⟩
        · rw [hsums.1.value, hvalues]
          rfl
        · rw [hsums.1.trace, htraces]
          rfl

end Node
end DiceNotation
