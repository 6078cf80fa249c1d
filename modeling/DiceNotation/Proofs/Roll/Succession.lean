import DiceNotation.Proofs.Roll.Structure

/-!
# Rolls one after another

What a roll of a node comes to and what it asks the engine for hangs on the
state of the engine alone, not on the memory and not on earlier requests.  A
selection or an explosion performs rolls of members one after another, each
from the state in which the roll before it left the engine.
-/

namespace DiceNotation
namespace Node

variable {σ : Type} {engine : Engine σ}

/-- A roll that was performed: the node, its reading and what the engine was
asked for. -/
structure Performed where
  node : Node
  reading : Reading
  requests : List (Int × Int)

/-- From one state of the engine to another, this is the roll of the node,
whatever the memory holds and whatever was asked before. -/
def Performed.Happens (engine : Engine σ) (p : Performed) (s s' : σ) : Prop :=
  ∀ (m : Memory) (before : Array (Int × Int)), ∃ o u,
    Rolling.run (roll engine p.node) ⟨m, s, before⟩ = (.ok o, u) ∧
      o.toReading = p.reading ∧ u.source = s' ∧
      u.requests.toList = before.toList ++ p.requests

/-- The state of the engine decides what the roll of a node is. -/
theorem Performed.Happens.unique
    {p q : Performed} {s t u : σ}
    (hp : p.Happens engine s t)
    (hq : q.Happens engine s u)
    (hnode : p.node = q.node) :
    p = q ∧ t = u := by
  obtain ⟨o, v, hrun, hreading, hsource, hrequests⟩ := hp Memory.empty #[]
  obtain ⟨o', v', hrun', hreading', hsource', hrequests'⟩ := hq Memory.empty #[]
  rw [hnode, hrun'] at hrun
  cases hrun
  have hmade : p.requests = q.requests := by simpa [hrequests] using hrequests'
  constructor
  · cases p
    cases q
    simp_all
  · exact hsource.symm.trans hsource'

/-- From one state of the engine to another, the rolls happen one after
another. -/
inductive Succession (engine : Engine σ) : σ → List Performed → σ → Prop where
  | nil (s : σ) : Succession engine s [] s
  | cons {s t u : σ} {p : Performed} {rest : List Performed} :
      p.Happens engine s t → Succession engine t rest u →
        Succession engine s (p :: rest) u

theorem Succession.append
    {s t u : σ} {ps qs : List Performed}
    (hps : Succession engine s ps t)
    (hqs : Succession engine t qs u) :
    Succession engine s (ps ++ qs) u := by
  induction hps with
  | nil => exact hqs
  | cons hp _ ih => exact .cons hp (ih hqs)

/-- Between two tables, the rolls were performed one after another, with these
outcomes, and the engine was asked for nothing else. -/
structure Performs (engine : Engine σ) (t : Table σ) (ps : List Performed)
    (os : List Outcome) (u : Table σ) : Prop where
  readings : os.map Outcome.toReading = ps.map Performed.reading
  succession : Succession engine t.source ps u.source
  requests :
    u.requests.toList = t.requests.toList ++ ps.flatMap Performed.requests

theorem performs_nil (engine : Engine σ) (t : Table σ) :
    Performs engine t [] [] t where
  readings := rfl
  succession := .nil t.source
  requests := by simp

theorem Performs.append
    {t u v : Table σ} {ps qs : List Performed} {os os' : List Outcome}
    (hps : Performs engine t ps os u)
    (hqs : Performs engine u qs os' v) :
    Performs engine t (ps ++ qs) (os ++ os') v where
  readings := by simp [hps.readings, hqs.readings]
  succession := hps.succession.append hqs.succession
  requests := by simp [hps.requests, hqs.requests]

/-- A change of the memory performs no roll. -/
theorem Performs.of_eq
    {t t' u u' : Table σ} {ps : List Performed} {os : List Outcome}
    (h : Performs engine t' ps os u')
    (ht : t'.source = t.source ∧ t'.requests = t.requests)
    (hu : u.source = u'.source ∧ u.requests = u'.requests) :
    Performs engine t ps os u where
  readings := h.readings
  succession := by simpa [ht.1, hu.1] using h.succession
  requests := by simpa [ht.2, hu.2] using h.requests

/-- A roll that returns is performed. -/
theorem performs_roll
    {node : Node} {t u : Table σ} {o : Outcome}
    (hrun : Rolling.run (roll engine node) t = (.ok o, u)) :
    ∃ p : Performed, p.node = node ∧ Performs engine t [p] [o] u := by
  have hsame (m : Memory) (before : Array (Int × Int)) :
      Agree
          (fun o o' => ∃ r, o = node.outcome .roll r ∧
            o' = node.outcome .roll r)
          (Rolling.run (roll engine node) t).1
          (Rolling.run (roll engine node) ⟨m, t.source, before⟩).1 ∧
        SameCourse t.requests before (Rolling.run (roll engine node) t).2
          (Rolling.run (roll engine node) ⟨m, t.source, before⟩).2 :=
    agree_of_bare_eq engine rfl rfl
  obtain ⟨made, hmade, -⟩ := (hsame t.memory t.requests).2.requests
  rw [hrun] at hmade
  have happens : Performed.Happens engine ⟨node, o.toReading,
      made.toList⟩ t.source u.source := by
    intro m before
    obtain ⟨hagree, hcourse⟩ := hsame m before
    rw [hrun] at hagree hcourse
    rcases hrun' :
      Rolling.run (roll engine node) ⟨m, t.source, before⟩ with ⟨_ | o', u'⟩
    · rw [hrun'] at hagree
      cases hagree
    · rw [hrun'] at hagree hcourse
      cases hagree with
      | ok hreadings =>
          obtain ⟨r, rfl, rfl⟩ := hreadings
          obtain ⟨made', hmade', hbefore⟩ := hcourse.requests
          have heq : made = made' :=
            (Array.append_right_inj _).mp (hmade.symm.trans hmade')
          refine ⟨_, u', rfl, rfl, hcourse.source.symm, ?_⟩
          simpa [heq] using congrArg Array.toList hbefore
  refine ⟨⟨node, o.toReading, made.toList⟩, rfl, rfl,
    .cons happens (.nil _), ?_⟩
  simpa using congrArg Array.toList hmade

/-- Nodes that are rolled once each are performed in order. -/
theorem performs_rollEach
    {nodes : List Node} {t u : Table σ} {os : List Outcome}
    (hrun : Rolling.run (rollEach engine nodes) t = (.ok os, u)) :
    ∃ ps : List Performed, ps.map Performed.node = nodes ∧
      Performs engine t ps os u := by
  induction nodes generalizing t os with
  | nil =>
      cases hrun
      exact ⟨[], rfl, performs_nil engine _⟩
  | cons node rest ih =>
      obtain ⟨o, v, hfirst, hrest⟩ := Rolling.run_bind_eq_ok hrun
      obtain ⟨others, w, hothers, hlast⟩ := Rolling.run_bind_eq_ok hrest
      cases hlast
      obtain ⟨p, hnode, hp⟩ := performs_roll hfirst
      obtain ⟨ps, hnodes, hps⟩ := ih hothers
      exact ⟨p :: ps, by simp [hnode, hnodes], hp.append hps⟩

/-- What a roll of a modifier performs is performed before its outcome is
complete. -/
theorem performs_settle
    {node : Node} {tracer : Tracer} {id : NodeId} {x : Rolling σ (List Outcome)}
    {f : List Outcome → Reading} {t u : Table σ} {o : Outcome}
    (hrun : Rolling.run (Rolling.settle id (do
      let outcomes ← x
      complete node tracer (f outcomes))) t = (.ok o, u)) :
    ∃ os opened closed, Rolling.run x opened = (.ok os, closed) ∧
      o.toReading = f os ∧
      ∀ ps, Performs engine opened ps os closed →
        Performs engine t ps os u := by
  rw [Rolling.run_settle] at hrun
  rcases hinner : Rolling.run
    (x >>= fun outcomes => complete node tracer (f outcomes))
    { t with memory.traces := t.memory.traces.set id [] } with ⟨_ | o', closed⟩
  · rw [hinner] at hrun
    cases hrun
  · rw [hinner] at hrun
    cases hrun
    obtain ⟨os, v, hx, hcomplete⟩ := Rolling.run_bind_eq_ok hinner
    cases hcomplete
    exact ⟨os, _, v, hx, rfl, fun ps h => h.of_eq ⟨rfl, rfl⟩ ⟨rfl, rfl⟩⟩

end Node
end DiceNotation
