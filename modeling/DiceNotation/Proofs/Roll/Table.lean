import DiceNotation.Proofs.Roll.Realizes

/-!
# Rolls of well-formed nodes at a table

With an engine that answers in range, the rolls of a well-formed node at a
table are the rolls described by draws: the roll returns exactly if the engine
answers the requests of some possible draws, it returns their reading, and it
records their requests.
-/

namespace DiceNotation

variable {σ : Type} {engine : Engine σ}

namespace Rolling

theorem run_draw (low high : Int) (t : Table σ) :
    run (draw engine low high) t =
      match engine.answer low high t.source with
      | none =>
          (.error .exhausted,
            { t with requests := t.requests.push (low, high) })
      | some (n, s) => (.ok n, ⟨t.memory, s, t.requests.push (low, high)⟩) := by
  change run (match engine.answer low high t.source with
    | none => throw Abort.exhausted
    | some (n, s) => do
        set ({ memory := t.memory, source := s,
               requests := t.requests.push (low, high) } : Table σ)
        return n) { t with requests := t.requests.push (low, high) } = _
  cases engine.answer low high t.source with
  | none => rfl
  | some answer => rfl

theorem run_settle (node : NodeId) (x : Rolling σ Outcome) (t : Table σ) :
    run (settle node x) t =
      match run x { t with memory.traces := t.memory.traces.set node [] } with
      | (.ok o, u) =>
          (.ok o, { u with memory.traces := u.memory.traces.set node o.trace })
      | (.error e, u) => (.error e, u) := by
  have hopen : run (ofEvaluation (σ := σ) (Memory.setTrace node [])) t =
      (.ok (), { t with memory.traces := t.memory.traces.set node [] }) := rfl
  rw [settle, run_bind_ok hopen, run_bind]
  rcases run x { t with memory.traces := t.memory.traces.set node [] }
    with ⟨e | o, u⟩
  · rfl
  · rfl

theorem realizes_draw
    (hengine : engine.InRange)
    {low high : Int}
    (hle : low ≤ high) :
    Realizes engine (draw engine low high) id fun ds n =>
      ds = [⟨low, high, n⟩] ∧ low ≤ n ∧ n ≤ high where
  sound {t u n} hrun := by
    rw [run_draw] at hrun
    cases hanswer : engine.answer low high t.source with
    | none =>
        rw [hanswer] at hrun
        cases hrun
    | some answer =>
        rw [hanswer] at hrun
        cases hrun
        obtain ⟨hlow, hhigh⟩ := hengine hle hanswer
        exact ⟨_, ⟨rfl, hlow, hhigh⟩, .cons hanswer (.nil _),
          by simp [Draw.request]⟩
  complete := by
    rintro t s ds n ⟨rfl, -, -⟩ hanswers
    cases hanswers with
    | cons hanswer hnil =>
        cases hnil
        refine ⟨n, ⟨t.memory, s, t.requests.push (low, high)⟩, ?_, rfl,
          .cons hanswer (.nil _), by simp [Draw.request]⟩
        rw [run_draw, hanswer]

end Rolling

namespace Node

open Rolling

section Bursts

variable {once : Node → List Draw → Reading → Prop} {node : Node}
  {comparator : Comparator} {threshold : Option Int}

/-- A burst ends with a result that does not call for another roll. -/
theorem Burst.exists_stop
    {ds : List Draw} {rs : List Reading}
    (h : Burst once ds rs comparator threshold node) :
    ∃ es r, once node es r ∧
      comparator.triggers (node.limit threshold) r.value = false := by
  induction h with
  | stop hroll hstop => exact ⟨_, _, hroll, hstop⟩
  | again _ _ _ ih => exact ih

/-- A roll that calls for another one makes draws, unless no roll of the node
ever stops. -/
theorem ne_nil_of_triggers
    {limit : Int} {ds es : List Draw} {r s : Reading}
    (hdetermined : Determined (once node))
    (hroll : once node ds r)
    (htriggers : comparator.triggers limit r.value = true)
    (hstop : once node es s)
    (hstops : comparator.triggers limit s.value = false) :
    ds ≠ [] := by
  rintro rfl
  have heq : [] ++ es = es ++ [] := (List.append_nil es).symm
  obtain ⟨-, rfl⟩ := hdetermined hroll hstop heq
  rw [htriggers] at hstops
  cases hstops

/-- All rounds of a burst but the last make draws. -/
theorem Burst.length_le
    {ds : List Draw} {rs : List Reading}
    (h : Burst once ds rs comparator threshold node)
    (hdetermined : Determined (once node)) :
    rs.length ≤ ds.length + 1 := by
  induction h with
  | stop => simp
  | @again ds es r rs _ _ _ hroll hagain hrest ih =>
      obtain ⟨us, s, hroll', hstop⟩ := hrest.exists_stop
      have hne := ne_nil_of_triggers hdetermined hroll hagain hroll' hstop
      have hpos := List.length_pos_iff.mpr hne
      have hrounds := ih hdetermined
      rw [List.length_cons, List.length_append]
      omega

variable {roll : Rolling σ Outcome}

theorem repeatUpTo_sound
    (h : Realizes engine roll Outcome.toReading (once node))
    {rounds : Nat} {t u : Table σ} {os : List Outcome}
    (hrun : run
      (repeatUpTo (fun o => comparator.triggers (node.limit threshold) o.value)
        roll rounds) t = (.ok os, u)) :
    ∃ ds, Burst once ds (os.map Outcome.toReading) comparator threshold node ∧
      Advances engine ds t u := by
  induction rounds generalizing t os with
  | zero => cases hrun
  | succ rounds ih =>
      rw [repeatUpTo] at hrun
      obtain ⟨o, v, hfirst, hrest⟩ := run_bind_eq_ok hrun
      obtain ⟨ds, hroll, hds⟩ := h.sound hfirst
      cases htriggers : comparator.triggers (node.limit threshold) o.value with
      | false =>
          rw [htriggers] at hrest
          cases hrest
          exact ⟨ds, .stop hroll htriggers, hds⟩
      | true =>
          rw [htriggers] at hrest
          obtain ⟨others, w, hothers, hlast⟩ := run_bind_eq_ok hrest
          cases hlast
          obtain ⟨es, hburst, hes⟩ := ih hothers
          exact ⟨ds ++ es, .again hroll htriggers hburst, hds.append hes⟩

theorem repeatUpTo_complete
    (h : Realizes engine roll Outcome.toReading (once node))
    {rounds : Nat} {t : Table σ} {s : σ} {ds : List Draw} {rs : List Reading}
    (hburst : Burst once ds rs comparator threshold node)
    (hrounds : rs.length ≤ rounds)
    (hanswers : engine.Answers t.source ds s) :
    ∃ os u, run
        (repeatUpTo
          (fun o => comparator.triggers (node.limit threshold) o.value) roll
          rounds) t = (.ok os, u) ∧
      os.map Outcome.toReading = rs ∧ Advances engine ds t u := by
  induction hburst generalizing rounds t with
  | stop hroll hstop =>
      obtain ⟨o, u, hfirst, rfl, hds⟩ := h.complete hroll hanswers
      cases rounds with
      | zero => cases hrounds
      | succ rounds =>
          refine ⟨[o], u, ?_, rfl, hds⟩
          rw [repeatUpTo, run_bind_ok hfirst, hstop]
          rfl
  | again hroll hagain _ ih =>
      obtain ⟨s', hds, hes⟩ := Engine.answers_append_iff.mp hanswers
      obtain ⟨o, u, hfirst, rfl, hadvances⟩ := h.complete hroll hds
      obtain rfl := hds.unique hadvances.answers
      cases rounds with
      | zero => cases hrounds
      | succ rounds =>
          obtain ⟨os, v, hrest, rfl, hadvances'⟩ :=
            ih h (Nat.le_of_succ_le_succ hrounds) hes
          refine ⟨o :: os, v, ?_, rfl, hadvances.append hadvances'⟩
          rw [repeatUpTo, run_bind_ok hfirst, hagain]
          exact run_bind_ok hrest

theorem realizes_rollExploding
    (h : Realizes engine roll Outcome.toReading (once node))
    (hdetermined : Determined (once node)) :
    Realizes engine (rollExploding engine comparator threshold node roll)
      (List.map Outcome.toReading)
      fun ds rs => Burst once ds rs comparator threshold node := by
  have hrepeat : Realizes engine
      (repeatWhile engine
        (fun o => comparator.triggers (node.limit threshold) o.value) roll)
      (List.map Outcome.toReading)
      fun ds rs => Burst once ds rs comparator threshold node := by
    constructor
    · intro t u os hrun
      exact repeatUpTo_sound h hrun
    · intro t s ds rs hburst hanswers
      have hlength := hburst.length_le hdetermined
      have hsupply := hanswers.length_add_remaining_le
      exact repeatUpTo_complete h hburst (by omega) hanswers
  cases threshold with
  | none =>
      exact Realizes.ofEvaluation_bind (gives_bound node .greatest) hrepeat
  | some t => exact hrepeat

end Bursts

theorem realizes_rollEach
    {nodes : List Node}
    (h : ∀ node ∈ nodes,
      Realizes engine (roll engine node) Outcome.toReading (Rolls node)) :
    Realizes engine (rollEach engine nodes) (List.map Outcome.toReading)
      (Each Rolls nodes) := by
  induction nodes with
  | nil =>
      refine (realizes_pure [] (List.map Outcome.toReading)).congr ?_
      intro ds rs
      constructor
      · rintro ⟨rfl, rfl⟩
        exact .nil
      · rintro ⟨⟩
        exact ⟨rfl, rfl⟩
  | cons node rest ih =>
      have hnode := h node List.mem_cons_self
      have hrest :=
        ih fun other hother => h other (List.mem_cons_of_mem _ hother)
      refine (hnode.bind
        (Q := fun r ds ss => ∃ rs, Each Rolls rest ds rs ∧ ss = r :: rs)
        fun o => hrest.finish (fun rs => o.toReading :: rs) fun os =>
          realizes_pure (o :: os) _).congr ?_
      intro ds rs
      constructor
      · rintro ⟨es, r, us, rfl, hroll, rs, hrest, rfl⟩
        exact .cons hroll hrest
      · rintro (_ | ⟨hroll, hrest⟩)
        exact ⟨_, _, _, rfl, hroll, _, hrest, rfl⟩

theorem realizes_explodeEach
    {comparator : Comparator} {threshold : Option Int} {nodes : List Node}
    (h : ∀ node ∈ nodes,
      Realizes engine (roll engine node) Outcome.toReading (Rolls node)) :
    Realizes engine (explodeEach engine comparator threshold nodes)
      (List.map Outcome.toReading)
      fun ds rs => ∃ blocks, Bursts Rolls nodes ds blocks comparator threshold ∧
        rs = blocks.flatten := by
  induction nodes with
  | nil =>
      refine (realizes_pure [] (List.map Outcome.toReading)).congr ?_
      intro ds rs
      constructor
      · rintro ⟨rfl, rfl⟩
        exact ⟨[], .nil, rfl⟩
      · rintro ⟨_, ⟨⟩, rfl⟩
        exact ⟨rfl, rfl⟩
  | cons node rest ih =>
      have hnode := h node List.mem_cons_self
      have hrest :=
        ih fun other hother => h other (List.mem_cons_of_mem _ hother)
      have hburst : Realizes engine
          (rollExploding engine comparator threshold node (roll engine node))
          (List.map Outcome.toReading)
          fun ds rs => Burst Rolls ds rs comparator threshold node :=
        realizes_rollExploding hnode (determined_rolls node)
      refine (hburst.bind
        (Q := fun block ds ss => ∃ rs,
          (∃ blocks, Bursts Rolls rest ds blocks comparator threshold ∧
            rs = blocks.flatten) ∧
          ss = block ++ rs)
        fun os => hrest.finish (fun rs => os.map Outcome.toReading ++ rs)
          fun others => (realizes_pure (os ++ others) _).congr fun ds rs => by
            rw [List.map_append]).congr fun ds rs => ?_
      constructor
      · rintro ⟨es, block, us, rfl, hblock, rs, ⟨blocks, hblocks, rfl⟩, rfl⟩
        exact ⟨block :: blocks, .cons hblock hblocks, rfl⟩
      · rintro ⟨_, _ | ⟨hblock, hblocks⟩, rfl⟩
        exact ⟨_, _, _, rfl, hblock, _, ⟨_, hblocks, rfl⟩, rfl⟩

theorem realizes_outcome (node : Node) (r : Reading) :
    Realizes engine (pure (node.outcome .roll r)) Outcome.toReading fun ds s =>
      ds = [] ∧ s = r :=
  realizes_pure (node.outcome .roll r) _

theorem realizes_complete (node : Node) (tracer : Tracer) (r : Reading) :
    Realizes engine (complete node tracer r) Outcome.toReading fun ds s =>
      ds = [] ∧ s = r :=
  Realizes.ofEvaluation_bind (gives_report node tracer .roll r)
    (realizes_outcome node r)

/-- The rolls of a well-formed node at a table are the rolls described by
draws. -/
theorem realizes_roll
    (hengine : engine.InRange)
    {node : Node}
    (hnode : node.WellFormed) :
    Realizes engine (roll engine node) Outcome.toReading (Rolls node) := by
  induction hnode with
  | @die id d hd =>
      rw [roll]
      refine Realizes.settle id
        (((realizes_draw hengine (Die.range_le hd)).finish
          (fun n => Reading.ofValue (d.face n))
          fun n => realizes_outcome _ _).congr
          fun ds r => ?_)
      constructor
      · rintro ⟨n, ⟨rfl, hlow, hhigh⟩, rfl⟩
        exact .die hlow hhigh
      · rintro ⟨hlow, hhigh⟩
        exact ⟨_, ⟨rfl, hlow, hhigh⟩, rfl⟩
  | @pool id items _ ih =>
      rw [roll]
      refine Realizes.settle id (((realizes_rollEach ih).finish Reading.total
        fun os => realizes_outcome _ _).congr fun ds r => ?_)
      constructor
      · rintro ⟨rs, hrolls, rfl⟩
        exact .pool hrolls
      · rintro (_ | hrolls)
        exact ⟨_, hrolls, rfl⟩
  | @arithmetic id tracer op operand inner _ _ _ ih =>
      rw [roll]
      refine Realizes.settle id ((ih.finish (fun r => r.operate op operand)
        fun o => realizes_complete _ _ _).congr fun ds r => ?_)
      constructor
      · rintro ⟨r, hrolls, rfl⟩
        exact .arithmetic hrolls
      · rintro (_ | _ | hrolls)
        exact ⟨_, hrolls, rfl⟩
  | @dropKeep id tracer selection threshold inner _ _ _ _ ih =>
      rw [roll_dropKeep]
      refine Realizes.settle id (((realizes_rollEach ih).finish
        (Reading.chosen selection threshold) fun os =>
          (realizes_complete _ _ _).congr fun ds r => ?_).congr fun ds r => ?_)
      · rw [totalChosen, Reading.chosen, List.map_map]
        rfl
      · constructor
        · rintro ⟨rs, hrolls, rfl⟩
          exact .dropKeep hrolls
        · rintro (_ | _ | _ | hrolls)
          exact ⟨_, hrolls, rfl⟩
  | @explode id tracer comparator threshold inner _ _ _ ih =>
      rw [roll_explode]
      refine Realizes.settle id (((realizes_explodeEach ih).finish Reading.total
        fun os => realizes_complete _ _ _).congr fun ds r => ?_)
      constructor
      · rintro ⟨rs, ⟨blocks, hrolls, rfl⟩, rfl⟩
        exact .explode hrolls
      · rintro (_ | _ | _ | _ | hrolls)
        exact ⟨_, ⟨_, hrolls, rfl⟩, rfl⟩

end Node
end DiceNotation
