import DiceNotation.Proofs.Roll.Succession

/-!
# Explosions roll again exactly while triggered

The rolls that an explosion performs fall into blocks, one for every member of
its inner node.  A block ends with its first result that does not call for
another roll, so there is only one way to divide the rolls.
-/

namespace DiceNotation
namespace Node

variable {σ : Type} {engine : Engine σ}

/-- The rolls of one member of an explosion: there is at least one, and each
calls for another one except the last. -/
structure Block (comparator : Comparator) (limit : Int) (member : Node)
    (rolls : List Performed) : Prop where
  ne_nil : rolls ≠ []
  node_eq : ∀ p ∈ rolls, p.node = member
  triggers :
    ∀ p ∈ rolls.dropLast, comparator.triggers limit p.reading.value = true
  stops :
    ∀ p ∈ rolls.getLast?, comparator.triggers limit p.reading.value = false

section Blocks

variable {comparator : Comparator} {limit : Int} {member : Node} {p : Performed}
  {rolls : List Performed}

theorem block_singleton
    (hnode : p.node = member)
    (hstop : comparator.triggers limit p.reading.value = false) :
    Block comparator limit member [p] where
  ne_nil := List.cons_ne_nil p []
  node_eq := by simp [hnode]
  triggers := by simp
  stops := by simp [hstop]

theorem Block.cons
    (h : Block comparator limit member rolls)
    (hnode : p.node = member)
    (htriggers : comparator.triggers limit p.reading.value = true) :
    Block comparator limit member (p :: rolls) where
  ne_nil := List.cons_ne_nil p rolls
  node_eq := by simpa [hnode] using h.node_eq
  triggers := by
    simpa [List.dropLast_cons_of_ne_nil h.ne_nil, htriggers] using h.triggers
  stops := by simpa [List.getLast?_cons_of_ne_nil h.ne_nil] using h.stops

/-- The first roll of a block is its last one, or it calls for the rest of the
block. -/
theorem Block.exists_eq_cons (h : Block comparator limit member rolls) :
    ∃ p rest, rolls = p :: rest ∧ p.node = member ∧
      ((comparator.triggers limit p.reading.value = false ∧ rest = []) ∨
        (comparator.triggers limit p.reading.value = true ∧
          Block comparator limit member rest)) := by
  obtain ⟨p, rest, rfl⟩ := List.exists_cons_of_ne_nil h.ne_nil
  refine ⟨p, rest, rfl, h.node_eq p List.mem_cons_self, ?_⟩
  by_cases hrest : rest = []
  · left
    exact ⟨h.stops p (by simp [hrest]), hrest⟩
  · right
    have htriggers := h.triggers
    have hstops := h.stops
    rw [List.dropLast_cons_of_ne_nil hrest, List.forall_mem_cons] at htriggers
    rw [List.getLast?_cons_of_ne_nil hrest] at hstops
    exact ⟨htriggers.1, hrest, (List.forall_mem_cons.mp h.node_eq).2,
      htriggers.2, hstops⟩

/-- Where rolls begin with a block, the state of the engine decides what the
block is and in which state it leaves the engine. -/
theorem Block.unique
    {others ps qs : List Performed} {s u v : σ}
    (hrolls : Block comparator limit member rolls)
    (hothers : Block comparator limit member others)
    (hps : Succession engine s (rolls ++ ps) u)
    (hqs : Succession engine s (others ++ qs) v) :
    rolls = others ∧ ∃ t, Succession engine t ps u ∧
      Succession engine t qs v := by
  induction rolls generalizing others s with
  | nil => exact absurd rfl hrolls.ne_nil
  | cons p rest ih =>
      obtain ⟨_, _, heq, hnode, hfirst⟩ := hrolls.exists_eq_cons
      obtain ⟨q, rest', rfl, hnode', hfirst'⟩ := hothers.exists_eq_cons
      cases heq
      cases hps with
      | cons hp hps =>
          cases hqs with
          | cons hq hqs =>
              obtain ⟨rfl, rfl⟩ := hp.unique hq (hnode.trans hnode'.symm)
              rcases hfirst with ⟨hstop, rfl⟩ | ⟨htriggers, hblock⟩
              · have hrest' : rest' = [] := by simpa [hstop] using hfirst'
                subst hrest'
                exact ⟨rfl, _, hps, hqs⟩
              · have hblock' : Block comparator limit member rest' := by
                  simpa [htriggers] using hfirst'
                obtain ⟨rfl, hstate⟩ := ih hblock hblock' hps hqs
                exact ⟨rfl, hstate⟩

end Blocks

/-- The rolls of the members of an explosion, one block for each member. -/
abbrev Blocks (comparator : Comparator) (limit : Node → Int)
    (members : List Node) (blocks : List (List Performed)) : Prop :=
  List.Forall₂ (fun member rolls =>
    Block comparator (limit member) member rolls) members blocks

/-- The rolls of an explosion can be divided into blocks in one way only. -/
theorem Blocks.unique
    {comparator : Comparator} {limit : Node → Int} {members : List Node}
    {blocks blocks' : List (List Performed)} {s u v : σ}
    (hblocks : Blocks comparator limit members blocks)
    (hblocks' : Blocks comparator limit members blocks')
    (hrolls : Succession engine s blocks.flatten u)
    (hrolls' : Succession engine s blocks'.flatten v) :
    blocks = blocks' := by
  induction hblocks generalizing blocks' s with
  | nil =>
      cases hblocks'
      rfl
  | cons hblock _ ih =>
      cases hblocks' with
      | cons hblock' hrest' =>
          obtain ⟨rfl, t, hps, hqs⟩ := hblock.unique hblock' hrolls hrolls'
          rw [ih hrest' hps hqs]

section Performing

variable {comparator : Comparator} {t u : Table σ} {os : List Outcome}

theorem performs_repeatUpTo
    {limit : Int} {node : Node} {rounds : Nat}
    (hrun : Rolling.run
      (Rolling.repeatUpTo (fun o => comparator.triggers limit o.value)
        (roll engine node) rounds) t = (.ok os, u)) :
    ∃ rolls, Block comparator limit node rolls ∧
      Performs engine t rolls os u := by
  induction rounds generalizing t os with
  | zero => cases hrun
  | succ rounds ih =>
      rw [Rolling.repeatUpTo] at hrun
      obtain ⟨o, v, hfirst, hrest⟩ := Rolling.run_bind_eq_ok hrun
      obtain ⟨p, hnode, hp⟩ := performs_roll hfirst
      have hreading : o.toReading = p.reading := by simpa using hp.readings
      by_cases htriggers : comparator.triggers limit o.value = true
      · simp only [htriggers, if_true] at hrest
        obtain ⟨others, w, hothers, hlast⟩ := Rolling.run_bind_eq_ok hrest
        cases hlast
        obtain ⟨rolls, hblock, hrolls⟩ := ih hothers
        rw [hreading] at htriggers
        exact ⟨p :: rolls, hblock.cons hnode htriggers, hp.append hrolls⟩
      · rw [Bool.not_eq_true] at htriggers
        simp only [htriggers] at hrest
        cases hrest
        rw [hreading] at htriggers
        exact ⟨[p], block_singleton hnode htriggers, hp⟩

theorem performs_rollExploding
    {threshold : Option Int} {node : Node}
    (hrun : Rolling.run
        (rollExploding engine comparator threshold node (roll engine node)) t =
      (.ok os, u)) :
    ∃ rolls, Block comparator (node.limit threshold) node rolls ∧
      Performs engine t rolls os u := by
  obtain ⟨limit, v, hlimit, hrepeat⟩ := Rolling.run_bind_eq_ok hrun
  obtain ⟨rolls, hblock, hrolls⟩ := performs_repeatUpTo hrepeat
  -- Without a threshold, the bound of the member is evaluated first.
  cases threshold with
  | none =>
      cases hlimit
      have hmaximum :
          (node.bound .greatest t.memory).1 = node.extreme .greatest :=
        gives_bound node .greatest t.memory
      rw [hmaximum] at hblock
      exact ⟨rolls, hblock, hrolls.of_eq ⟨rfl, rfl⟩ ⟨rfl, rfl⟩⟩
  | some n =>
      cases hlimit
      exact ⟨rolls, hblock, hrolls⟩

theorem performs_explodeEach
    {threshold : Option Int} {nodes : List Node}
    (hrun : Rolling.run (explodeEach engine comparator threshold nodes) t =
      (.ok os, u)) :
    ∃ blocks,
      Blocks comparator (fun node => node.limit threshold) nodes blocks ∧
      Performs engine t blocks.flatten os u := by
  induction nodes generalizing t os with
  | nil =>
      cases hrun
      exact ⟨[], .nil, performs_nil engine _⟩
  | cons node rest ih =>
      obtain ⟨first, v, hfirst, hrest⟩ := Rolling.run_bind_eq_ok hrun
      obtain ⟨others, w, hothers, hlast⟩ := Rolling.run_bind_eq_ok hrest
      cases hlast
      obtain ⟨rolls, hblock, hrolls⟩ := performs_rollExploding hfirst
      obtain ⟨blocks, hblocks, hmore⟩ := ih hothers
      exact ⟨rolls :: blocks, .cons hblock hblocks, hrolls.append hmore⟩

end Performing

/-- Explosions roll again exactly while triggered.  The rolls that a returning
roll of an explosion performs divide in exactly one way into blocks, one for
each member of the inner node, in order: every roll of a block except the last
compares with the threshold, or else with the greatest value of the member,
and the last one does not.  The value is the clamped sum of all these rolls,
the trace joins their traces, and the engine is asked for what they ask for
and for nothing else. -/
theorem explosion_rolls_while_triggered
    {node : NodeId} {tracer : Tracer} {comparator : Comparator}
    {threshold : Option Int} {inner : Node} {t u : Table σ} {o : Outcome}
    (hrun :
      Rolling.run
        (roll engine (explode node tracer comparator threshold inner)) t =
          (.ok o, u))
    (m : Memory) :
    ∃! blocks : List (List Performed),
      Blocks comparator (fun member => threshold.getD (member.maximum.run m).1)
        inner.members blocks ∧
      Succession engine t.source blocks.flatten u.source ∧
      o.value = clamp (blocks.flatten.map fun p => p.reading.value).sum ∧
      o.trace = Trace.join (blocks.flatten.map fun p =>
        Trace.asSummand p.reading.trace) ∧
      u.requests.toList = t.requests.toList ++
        blocks.flatten.flatMap Performed.requests := by
  have hlimit : (fun member : Node => threshold.getD (member.maximum.run m).1) =
      fun member => member.limit threshold := by
    funext member
    rw [limit, maximum, gives_bound member .greatest m]
  rw [hlimit]
  rw [roll_explode] at hrun
  obtain ⟨os, opened, closed, hexplode, hreading, hperforms⟩ :=
    performs_settle hrun
  obtain ⟨blocks, hblocks, hrolls⟩ := performs_explodeEach hexplode
  have hall := hperforms _ hrolls
  have htotal :
      o.toReading = Reading.total (blocks.flatten.map Performed.reading) := by
    rw [hreading, totalOf, hall.readings]
  refine ⟨blocks, ⟨hblocks, hall.succession, ?_, ?_, hall.requests⟩, ?_⟩
  · simp [htotal, Reading.value_total, Function.comp_def]
  · simp [htotal, Reading.total, Function.comp_def]
  · rintro blocks' ⟨hblocks', hrolls', -⟩
    exact hblocks'.unique hblocks hrolls' hall.succession

/-- A die that explodes on its highest side, rolled as six and then three. -/
theorem exploding_die_six_then_three :
    ∃ o u, Rolling.run (roll Engine.script
        (explode 1 Tracer.silent .equal none (die 0 (.sided 6))))
          ⟨Memory.empty, [6, 3], #[]⟩ = (.ok o, u) ∧
      ∃ rolls, Block .equal 6 (die 0 (.sided 6)) rolls ∧
        Succession Engine.script [6, 3] rolls [] ∧
        clamp (rolls.map fun p => p.reading.value).sum = 9 ∧
        rolls.flatMap Performed.requests = [(1, 6), (1, 6)] := by
  have hroll : Rolling.run (roll Engine.script
        (explode 1 Tracer.silent .equal none (die 0 (.sided 6))))
          ⟨Memory.empty, [6, 3], #[]⟩ = _ := rfl
  obtain ⟨blocks, ⟨hblocks, hrolls, hvalue, -, hrequests⟩, -⟩ :=
    explosion_rolls_while_triggered hroll Memory.empty
  obtain ⟨rolls, rest, hblock, hrest, rfl⟩ :=
    List.forall₂_cons_left_iff.mp hblocks
  obtain rfl := List.forall₂_nil_left_iff.mp hrest
  simp only [List.flatten_cons, List.flatten_nil,
    List.append_nil] at hrolls hvalue hrequests
  exact ⟨_, _, hroll, rolls, hblock, hrolls, hvalue.symm, hrequests.symm⟩

end Node
end DiceNotation
