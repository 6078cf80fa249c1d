import DiceNotation.Proofs.Roll.Structure

/-!
# The schedule of a roll

As long as nothing explodes, a roll asks the engine for one number for every die
in the tree, from left to right, and for nothing else.  What it asks for is thus
known before the first answer, and it is the same for all trees with the same
dice, whatever their modifiers make of the numbers.
-/

namespace DiceNotation

variable {σ : Type} {engine : Engine σ}

namespace Rolling

/-- Asks the engine for numbers, one request after another. -/
def drawAll (engine : Engine σ) : List (Int × Int) → Rolling σ Unit
  | [] => return ()
  | (low, high) :: rest => do
      let _ ← draw engine low high
      drawAll engine rest

theorem drawAll_append (engine : Engine σ)
    (requests others : List (Int × Int)) :
    drawAll engine (requests ++ others) =
      (do drawAll engine requests; drawAll engine others) := by
  induction requests with
  | nil => rw [List.nil_append, drawAll, pure_bind]
  | cons request rest ih =>
      rw [List.cons_append, drawAll, ih, drawAll, bind_assoc]

/-- From one table to another, the engine was asked for all numbers of a
schedule and answered every time. -/
def Completes (engine : Engine σ) (schedule : List (Int × Int))
    (t u : Table σ) : Prop :=
  ∃ ds : List Draw, ds.map Draw.request = schedule ∧ Advances engine ds t u

/-- From one table to another, the engine was asked for the numbers of a
schedule up to the first one that it did not have. -/
def BreaksOff (engine : Engine σ) (schedule : List (Int × Int))
    (t u : Table σ) : Prop :=
  ∃ (ds : List Draw) (missing : Int × Int) (rest : List (Int × Int)),
    schedule = ds.map Draw.request ++ missing :: rest ∧
      engine.Answers t.source ds u.source ∧
      engine.answer missing.1 missing.2 u.source = none ∧
      u.requests.toList = t.requests.toList ++ ds.map Draw.request ++ [missing]

section Steps

variable {schedule : List (Int × Int)} {t t' u : Table σ} {d : Draw}

/-- One more answered request in front. -/
theorem Completes.cons
    (hfirst : Advances engine [d] t t')
    (h : Completes engine schedule t' u) :
    Completes engine (d.request :: schedule) t u := by
  obtain ⟨ds, rfl, hds⟩ := h
  exact ⟨d :: ds, rfl, hfirst.append hds⟩

theorem BreaksOff.cons
    (hfirst : Advances engine [d] t t')
    (h : BreaksOff engine schedule t' u) :
    BreaksOff engine (d.request :: schedule) t u := by
  obtain ⟨ds, missing, rest, rfl, hanswers, hmissing, hrequests⟩ := h
  refine ⟨d :: ds, missing, rest, rfl, ?_, hmissing, ?_⟩
  · exact Engine.answers_append_iff.mpr ⟨t'.source, hfirst.answers, hanswers⟩
  · rw [hrequests, hfirst.requests, List.map_singleton, List.map_cons]
    simp only [List.append_assoc, List.singleton_append]

end Steps

theorem advances_draw
    {low high n : Int} {t : Table σ} {s : σ}
    (h : engine.answer low high t.source = some (n, s)) :
    run (draw engine low high) t =
        (.ok n, ⟨t.memory, s, t.requests.push (low, high)⟩) ∧
      Advances engine [⟨low, high, n⟩] t
        ⟨t.memory, s, t.requests.push (low, high)⟩ := by
  refine ⟨?_, .cons h (.nil s), ?_⟩
  · rw [run_draw, h]
  · rw [Array.toList_push]
    rfl

/-- Numbers are drawn until the schedule is completed or the engine has no
answer. -/
theorem run_drawAll (engine : Engine σ)
    (schedule : List (Int × Int)) (t : Table σ) :
    ∃ u, (run (drawAll engine schedule) t = (.ok (), u) ∧
      Completes engine schedule t u) ∨
      (run (drawAll engine schedule) t = (.error .exhausted, u) ∧
        BreaksOff engine schedule t u) := by
  induction schedule generalizing t with
  | nil => exact ⟨t, Or.inl ⟨rfl, [], rfl, .nil _, by simp⟩⟩
  | cons request rest ih =>
      obtain ⟨low, high⟩ := request
      cases hanswer : engine.answer low high t.source with
      | none =>
          refine ⟨{ t with requests := t.requests.push (low, high) },
            Or.inr ⟨?_, ?_⟩⟩
          · rw [drawAll, run_bind, run_draw, hanswer]
          · exact ⟨[], (low, high), rest, rfl, .nil _, hanswer, by simp⟩
      | some answer =>
          obtain ⟨n, s⟩ := answer
          obtain ⟨hdraw, hfirst⟩ := advances_draw hanswer
          obtain ⟨u, hrest⟩ := ih ⟨t.memory, s, t.requests.push (low, high)⟩
          refine ⟨u, ?_⟩
          rw [drawAll, run_bind_ok hdraw]
          exact hrest.imp (And.imp_right (Completes.cons hfirst))
            (And.imp_right (BreaksOff.cons hfirst))

/-- Where the engine answers the whole schedule, all numbers are drawn. -/
theorem run_drawAll_of_answers
    {t : Table σ} {s : σ} {ds : List Draw}
    (h : engine.Answers t.source ds s) :
    ∃ u, run (drawAll engine (ds.map Draw.request)) t = (.ok (), u) ∧
      u.source = s := by
  induction ds generalizing t with
  | nil =>
      cases h
      exact ⟨t, rfl, rfl⟩
  | cons d ds ih =>
      cases h with
      | cons hanswer hrest =>
          have hdraw := (advances_draw hanswer).1
          obtain ⟨u, hrun, hsource⟩ := ih (t := ⟨t.memory, _, _⟩) hrest
          refine ⟨u, ?_, hsource⟩
          rw [List.map_cons, Draw.request, drawAll, run_bind_ok hdraw]
          exact hrun

/-- At tables on the same course, the computation asks for the numbers of a
schedule, whatever it makes of them. -/
abbrev Keeps {α : Type} (engine : Engine σ) (x : Rolling σ α)
    (schedule : List (Int × Int)) : Prop :=
  ∀ since since',
    Agrees since since' (fun _ _ => True) x (drawAll engine schedule)

variable {α β : Type} {x : Rolling σ α} {schedule others : List (Int × Int)}

theorem keeps_pure (a : α) : Keeps engine (pure a) [] :=
  fun _ _ => .pure trivial

theorem keeps_draw (engine : Engine σ) (low high : Int) :
    Keeps engine (draw engine low high) [(low, high)] := by
  intro since since'
  have h : Agrees since since' (fun _ _ => True) (draw engine low high >>= pure)
      (drawAll engine [(low, high)]) :=
    (agrees_draw engine low high).bind fun _ _ _ => .pure trivial
  rwa [bind_pure] at h

theorem Keeps.bind
    {f : α → Rolling σ β}
    (hx : Keeps engine x schedule)
    (hf : ∀ a, Keeps engine (f a) others) :
    Keeps engine (x >>= f) (schedule ++ others) := by
  intro since since'
  rw [drawAll_append]
  exact (hx since since').bind fun a _ _ => hf a since since'

/-- What comes last may do without draws. -/
theorem Keeps.finish
    {f : α → Rolling σ β}
    (hx : Keeps engine x schedule)
    (hf : ∀ a, Keeps engine (f a) []) :
    Keeps engine (x >>= f) schedule := by
  have h := hx.bind hf
  rwa [List.append_nil] at h

theorem keeps_ofEvaluation (e : Evaluation α) :
    Keeps engine (ofEvaluation e) [] :=
  fun _ _ _ _ h => ⟨.ok trivial, h.source, h.requests⟩

theorem Keeps.settle
    {x : Rolling σ Outcome}
    (h : Keeps engine x schedule)
    (node : NodeId) :
    Keeps engine (settle node x) schedule := by
  have hopen :
      Keeps engine (ofEvaluation (σ := σ) (Memory.setTrace node [])) [] :=
    keeps_ofEvaluation _
  have hlast (o : Outcome) : Keeps engine (do
      ofEvaluation (σ := σ) (Memory.setTrace node o.trace)
      return o) [] :=
    (keeps_ofEvaluation _).finish fun _ => keeps_pure o
  have hall := hopen.bind fun _ => h.finish hlast
  rwa [List.nil_append] at hall

end Rolling

namespace Node

open Rolling

mutual

/-- The dice of the tree, one for every place where a die stands, from left to
right. -/
def dice : Node → List Die
  | die _ d => [d]
  | pool _ items => allDice items
  | arithmetic _ _ _ _ inner => dice inner
  | dropKeep _ _ _ _ inner => dice inner
  | explode _ _ _ _ inner => dice inner
termination_by structural node => node

/-- The dice of nodes, from left to right. -/
def allDice : List Node → List Die
  | [] => []
  | node :: rest => dice node ++ allDice rest
termination_by structural nodes => nodes

end

/-- The dice of a node are those of its members. -/
theorem dice_eq_members (node : Node) : node.dice = allDice node.members := by
  cases node with
  | pool => simp only [dice, members]
  | _ => simp only [members, allDice, List.append_nil]

theorem allDice_eq_flatMap (nodes : List Node) :
    allDice nodes = nodes.flatMap dice := by
  induction nodes with
  | nil => rfl
  | cons node rest ih => rw [allDice, ih, List.flatMap_cons]

/-- The dice of a tree only depend on its structure. -/
theorem dice_bare (node : Node) : node.bare.dice = node.dice := by
  induction node using induction_members with
  | die => rfl
  | pool id items ih =>
      rw [bare_pool, dice, dice, allDice_eq_flatMap, allDice_eq_flatMap,
        List.flatMap_map]
      exact List.flatMap_congr ih
  | arithmetic _ _ _ _ _ ih | dropKeep _ _ _ _ _ ih _
  | explode _ _ _ _ _ ih _ =>
      rw [bare, dice, dice, ih]

/-- The requests that a roll without explosions makes. -/
def schedule (node : Node) : List (Int × Int) :=
  node.dice.map Die.range

/-- No explosion stands in the tree. -/
def WithoutExplosions (node : Node) : Prop :=
  ∀ id tracer comparator threshold inner,
    ¬Occurs (explode id tracer comparator threshold inner) node

theorem WithoutExplosions.of_occurs
    {part node : Node}
    (h : WithoutExplosions node)
    (hpart : Occurs part node) :
    WithoutExplosions part :=
  fun _ _ _ _ _ hexplode => h _ _ _ _ _ (hexplode.trans hpart)

theorem WithoutExplosions.member
    {inner node member : Node}
    (h : WithoutExplosions node)
    (hinner : inner ∈ node.children)
    (hmember : member ∈ inner.members) :
    WithoutExplosions member :=
  h.of_occurs ((Occurs.here node).member hinner hmember)

theorem WithoutExplosions.of_children
    {node : Node}
    (hself : ∀ id tracer comparator threshold inner,
      node ≠ explode id tracer comparator threshold inner)
    (h : ∀ child ∈ node.children, child.WithoutExplosions) :
    node.WithoutExplosions := by
  intro id tracer comparator threshold inner hoccurs
  cases hoccurs with
  | here => exact hself _ _ _ _ _ rfl
  | inside hpart hchild => exact h _ hchild _ _ _ _ _ hpart

theorem withoutExplosions_die (id : NodeId) (d : Die) :
    (die id d).WithoutExplosions :=
  .of_children (fun _ _ _ _ _ h => by cases h)
    fun _ h => absurd h List.not_mem_nil

theorem keeps_rollEach
    {nodes : List Node}
    (h : ∀ node ∈ nodes, Keeps engine (roll engine node) node.schedule) :
    Keeps engine (rollEach engine nodes) ((allDice nodes).map Die.range) := by
  induction nodes with
  | nil => exact keeps_pure []
  | cons node rest ih =>
      rw [List.forall_mem_cons] at h
      rw [rollEach, allDice, List.map_append]
      exact h.1.bind fun o =>
        (ih h.2).finish fun outcomes => keeps_pure (o :: outcomes)

theorem keeps_complete (node : Node) (tracer : Tracer) (r : Reading) :
    Keeps engine (node.complete tracer r) [] :=
  (keeps_ofEvaluation _).finish fun _ => keeps_pure _

/-- A roll of a tree without explosions keeps its schedule. -/
theorem keeps_roll
    (engine : Engine σ)
    {node : Node}
    (hnode : node.WithoutExplosions) :
    Keeps engine (roll engine node) node.schedule := by
  induction node using induction_members with
  | die id d =>
      rw [roll]
      exact ((keeps_draw engine
        d.range.1 d.range.2).finish fun n => keeps_pure _).settle id
  | pool id items ih =>
      have hitems := keeps_rollEach fun item hitem =>
        ih item hitem (hnode.of_occurs ((Occurs.here item).inside hitem))
      rw [roll, schedule, dice]
      exact (hitems.finish fun outcomes => keeps_pure _).settle id
  | arithmetic id tracer op operand inner ih =>
      have hinner :=
        ih (hnode.of_occurs ((Occurs.here inner).inside List.mem_cons_self))
      rw [roll, schedule, dice]
      exact (hinner.finish fun o => keeps_complete _ _ _).settle id
  | dropKeep id tracer selection threshold inner _ ih =>
      have hmembers := keeps_rollEach fun member hmember =>
        ih member hmember (hnode.member List.mem_cons_self hmember)
      rw [roll_dropKeep, schedule, dice, dice_eq_members]
      exact (hmembers.finish fun outcomes => keeps_complete _ _ _).settle id
  | explode id tracer comparator threshold inner =>
      exact absurd (Occurs.here _) (hnode _ _ _ _ _)

/-- At a table, a roll of a tree without explosions goes as drawing its schedule
does. -/
theorem roll_and_drawAll
    {node : Node}
    (hnode : node.WithoutExplosions)
    (engine : Engine σ)
    (t : Table σ) :
    Agree (fun _ _ => True) (run (roll engine node) t).1
        (run (drawAll engine node.schedule) t).1 ∧
      (run (roll engine node) t).2.source =
        (run (drawAll engine node.schedule) t).2.source ∧
      (run (roll engine node) t).2.requests =
        (run (drawAll engine node.schedule) t).2.requests := by
  obtain ⟨hresult, hsource, made, hroll, hdraws⟩ :=
    keeps_roll engine hnode t.requests t.requests
      (SameCourse.refl (t := t) (u := t) rfl)
  exact ⟨hresult, hsource, hroll.trans hdraws.symm⟩

/-- A roll of a tree without explosions makes one request for every place where
a die stands, from left to right.  It returns if the engine answers these
requests, and else it is broken off at the first one without an answer.  All
trees with the same dice ask for the same, whatever becomes of the answers in
their modifiers. -/
theorem roll_draws_every_die
    {node : Node}
    (hnode : node.WithoutExplosions)
    (engine : Engine σ)
    (t : Table σ) :
    (∀ ds s, ds.map Draw.request = node.dice.map Die.range →
      engine.Answers t.source ds s →
        ∃ o u, run (roll engine node) t = (.ok o, u) ∧ u.source = s) ∧
      (∀ o u, run (roll engine node) t = (.ok o, u) →
        u.requests.toList = t.requests.toList ++ node.dice.map Die.range) ∧
      (∀ e u, run (roll engine node) t = (.error e, u) →
        e = .exhausted ∧ BreaksOff engine (node.dice.map Die.range) t u) ∧
      ∀ node' t', node'.WithoutExplosions → node'.dice = node.dice →
        t'.source = t.source →
        Agree (fun _ _ => True) (run (roll engine node) t).1
            (run (roll engine node') t').1 ∧
          SameCourse t.requests t'.requests (run (roll engine node) t).2
            (run (roll engine node') t').2 := by
  obtain ⟨hresult, hsource, hrequests⟩ := roll_and_drawAll hnode engine t
  refine ⟨?_, ?_, ?_, ?_⟩
  · intro ds s hds hanswers
    obtain ⟨v, hdraws, rfl⟩ := run_drawAll_of_answers hanswers
    rw [hds, ← schedule] at hdraws
    rw [hdraws] at hresult hsource
    rcases hrun : run (roll engine node) t with ⟨e | o, u⟩
    · rw [hrun] at hresult
      cases hresult
    · rw [hrun] at hsource
      exact ⟨o, u, rfl, hsource⟩
  · intro o u hrun
    rw [hrun] at hresult hrequests
    obtain ⟨v, ⟨hdraws, ds, hds, hadvances⟩ | ⟨hdraws, -⟩⟩ :=
      run_drawAll engine node.schedule t
    · rw [hdraws] at hrequests
      rw [← schedule, ← hds, ← hadvances.requests]
      exact congrArg Array.toList hrequests
    · rw [hdraws] at hresult
      cases hresult
  · intro e u hrun
    rw [hrun] at hresult hsource hrequests
    obtain ⟨v, ⟨hdraws, -⟩ | ⟨hdraws, hbreaks⟩⟩ :=
      run_drawAll engine node.schedule t
    · rw [hdraws] at hresult
      cases hresult
    · rw [hdraws] at hresult hsource hrequests
      cases hresult
      refine ⟨rfl, ?_⟩
      rw [BreaksOff, hsource, hrequests]
      exact hbreaks
  · intro node' t' hnode' hdice hsame
    have hfirst := keeps_roll engine hnode t.requests t.requests
      (SameCourse.refl (u := t) rfl)
    have hsecond := keeps_roll engine hnode' t'.requests t.requests
      (SameCourse.refl (u := t) hsame)
    rw [schedule, hdice, ← schedule] at hsecond
    exact ⟨hfirst.1.join hsecond.1 fun _ _ _ _ _ => trivial,
      hfirst.2.join hsecond.2⟩

/-- The lowest of a die, a fudge die times zero and a die with listed faces: all
three are drawn. -/
theorem dropped_dice_are_drawn :
    ∃ node, node.WithoutExplosions ∧
      node.render = "(D6+DF*0+D[5,7,9])KL1".toList ∧
      ∃ o u,
        run (roll Engine.script node) ⟨Memory.empty, [4, 1, 2], #[]⟩ =
          (.ok o, u) ∧
        u.requests.toList = [(1, 6), (-1, 1), (0, 2)] := by
  have hfudge : (arithmetic 2 Tracer.silent .multiply 0
      (die 1 .fudge)).WithoutExplosions := by
    refine .of_children (fun _ _ _ _ _ h => by cases h) ?_
    rw [children, List.forall_mem_singleton]
    exact withoutExplosions_die 1 .fudge
  have hpool : (pool 4 [die 0 (.sided 6),
      arithmetic 2 Tracer.silent .multiply 0 (die 1 .fudge),
      die 3 (.custom [5, 7, 9])]).WithoutExplosions := by
    refine .of_children (fun _ _ _ _ _ h => by cases h) ?_
    rw [children, List.forall_mem_cons, List.forall_mem_cons,
      List.forall_mem_singleton]
    exact ⟨withoutExplosions_die _ _, hfudge, withoutExplosions_die _ _⟩
  have hnode :
      (dropKeep 5 Tracer.silent .keepLowest 1 (pool 4 [die 0 (.sided 6),
        arithmetic 2 Tracer.silent .multiply 0 (die 1 .fudge),
        die 3 (.custom [5, 7, 9])])).WithoutExplosions := by
    refine .of_children (fun _ _ _ _ _ h => by cases h) ?_
    rw [children, List.forall_mem_singleton]
    exact hpool
  have hroll : run (roll Engine.script
      (dropKeep 5 Tracer.silent .keepLowest 1 (pool 4 [die 0 (.sided 6),
        arithmetic 2 Tracer.silent .multiply 0 (die 1 .fudge),
        die 3 (.custom [5, 7, 9])]))) ⟨Memory.empty, [4, 1, 2], #[]⟩ = _ := rfl
  have hrequests := (roll_draws_every_die hnode Engine.script _).2.1 _ _ hroll
  exact ⟨_, hnode, by rfl, _, _, hroll, hrequests⟩

end Node
end DiceNotation
