import DiceNotation.Node.Roll
import DiceNotation.Proofs.Roll.Draws

/-!
# Rolls at a table are draws

At a table, a roll changes the memory and is broken off when the engine has no
number left.  As far as its result is concerned it is described by draws alone:
it returns exactly if the engine answers the requests of some possible draws,
and then with their reading.

The rounds of a burst are bounded by the supply of the engine.  The bound is
never met, because a round that makes no draw shows the same result whenever it
is repeated, and so it cannot be followed by a round that ends the burst.
-/

namespace DiceNotation

variable {σ : Type}

namespace Engine

/-- From one state to another, the engine answers the requests of the draws
with their answers. -/
inductive Answers (engine : Engine σ) : σ → List Draw → σ → Prop where
  | nil (s : σ) : Answers engine s [] s
  | cons {s t u : σ} {d : Draw} {ds : List Draw} :
      engine.answer d.low d.high s = some (d.answer, t) →
      Answers engine t ds u →
      Answers engine s (d :: ds) u

/-- The engine answers inside of the requested range. -/
def InRange (engine : Engine σ) : Prop :=
  ∀ {low high n : Int} {s t : σ},
    low ≤ high → engine.answer low high s = some (n, t) → low ≤ n ∧ n ≤ high

variable {engine : Engine σ}

theorem answers_append_iff {s u : σ} {ds es : List Draw} :
    engine.Answers s (ds ++ es) u ↔ ∃ t, engine.Answers s ds t ∧
      engine.Answers t es u := by
  constructor
  · intro h
    induction ds generalizing s with
    | nil => exact ⟨s, .nil s, h⟩
    | cons d ds ih =>
        cases h with
        | cons hd hrest =>
            obtain ⟨t, hds, hes⟩ := ih hrest
            exact ⟨t, .cons hd hds, hes⟩
  · rintro ⟨t, hds, hes⟩
    induction hds with
    | nil => exact hes
    | cons hd _ ih => exact .cons hd (ih hes)

theorem Answers.unique
    {s t u : σ} {ds : List Draw}
    (ht : engine.Answers s ds t)
    (hu : engine.Answers s ds u) :
    t = u := by
  induction ht with
  | nil =>
      cases hu
      rfl
  | cons hd _ ih =>
      cases hu with
      | cons hd' hrest =>
          rw [hd] at hd'
          cases hd'
          exact ih hrest

/-- Every answer uses up some of the supply. -/
theorem Answers.length_add_remaining_le
    {s t : σ} {ds : List Draw}
    (h : engine.Answers s ds t) :
    ds.length + engine.remaining t ≤ engine.remaining s := by
  induction h with
  | nil => simp
  | cons hd _ ih =>
      have hspent := engine.spends hd
      rw [List.length_cons]
      omega

theorem inRange_script : script.InRange := by
  intro low high n s t hle h
  cases s with
  | nil => cases h
  | cons m rest =>
      cases h
      have hlow := Int.emod_nonneg (m - low) (by omega : high - low + 1 ≠ 0)
      have hhigh := Int.emod_lt_of_pos (m - low) (by omega : 0 < high - low + 1)
      omega

end Engine

namespace Rolling

variable {α β γ : Type}

/-- The result of a roll at a table, and the table that it leaves. -/
def run (x : Rolling σ α) (t : Table σ) : Except Abort α × Table σ :=
  (ExceptT.run x).run t

theorem run_bind (x : Rolling σ α) (f : α → Rolling σ β) (t : Table σ) :
    run (x >>= f) t =
      match run x t with
      | (.ok a, after) => run (f a) after
      | (.error e, after) => (.error e, after) := by
  simp only [run, ExceptT.run_bind, StateT.run_bind]
  change (match (ExceptT.run x).run t with | (r, after) => _) = _
  rcases (ExceptT.run x).run t with ⟨_ | _, _⟩ <;> rfl

theorem run_bind_ok
    {x : Rolling σ α} {f : α → Rolling σ β} {t u : Table σ} {a : α}
    (h : run x t = (.ok a, u)) :
    run (x >>= f) t = run (f a) u := by
  rw [run_bind, h]

theorem run_bind_eq_ok
    {x : Rolling σ α} {f : α → Rolling σ β} {t v : Table σ} {b : β}
    (h : run (x >>= f) t = (.ok b, v)) :
    ∃ a u, run x t = (.ok a, u) ∧ run (f a) u = (.ok b, v) := by
  rw [run_bind] at h
  rcases hx : run x t with ⟨e | a, u⟩
  · rw [hx] at h
    cases h
  · rw [hx] at h
    exact ⟨a, u, rfl, h⟩

/-- From one table to another, the engine answers the requests of the draws,
which are recorded. -/
structure Advances (engine : Engine σ) (ds : List Draw)
    (t u : Table σ) : Prop where
  answers : engine.Answers t.source ds u.source
  requests : u.requests.toList = t.requests.toList ++ ds.map Draw.request

theorem Advances.append
    {engine : Engine σ} {ds es : List Draw} {t u v : Table σ}
    (hds : Advances engine ds t u)
    (hes : Advances engine es u v) :
    Advances engine (ds ++ es) t v where
  answers := Engine.answers_append_iff.mpr ⟨u.source, hds.answers, hes.answers⟩
  requests := by
    rw [hes.requests, hds.requests, List.map_append, List.append_assoc]

/-- Seen through a view of its results, what returns at a table is described by
draws. -/
structure Realizes (engine : Engine σ) (x : Rolling σ α) (view : α → β)
    (P : List Draw → β → Prop) : Prop where
  sound : ∀ {t u : Table σ} {a : α}, run x t = (.ok a, u) →
    ∃ ds, P ds (view a) ∧ Advances engine ds t u
  complete : ∀ {t : Table σ} {s : σ} {ds : List Draw} {b : β},
    P ds b → engine.Answers t.source ds s →
      ∃ a u, run x t = (.ok a, u) ∧ view a = b ∧ Advances engine ds t u

variable {engine : Engine σ}

theorem Realizes.congr
    {x : Rolling σ α} {view : α → β} {P Q : List Draw → β → Prop}
    (h : Realizes engine x view P)
    (hPQ : ∀ ds b, P ds b ↔ Q ds b) :
    Realizes engine x view Q where
  sound hrun := by
    obtain ⟨ds, hP, hadvances⟩ := h.sound hrun
    exact ⟨ds, (hPQ _ _).mp hP, hadvances⟩
  complete hQ := h.complete ((hPQ _ _).mpr hQ)

theorem realizes_pure (a : α) (view : α → β) :
    Realizes engine (pure a) view fun ds b => ds = [] ∧ b = view a where
  sound hrun := by
    cases hrun
    exact ⟨[], ⟨rfl, rfl⟩, .nil _, by simp⟩
  complete := by
    rintro t s ds b ⟨rfl, rfl⟩ -
    exact ⟨a, t, rfl, rfl, .nil _, by simp⟩

theorem Realizes.bind
    {x : Rolling σ α} {f : α → Rolling σ γ} {δ : Type}
    {view : α → β} {view' : γ → δ}
    {P : List Draw → β → Prop} {Q : β → List Draw → δ → Prop}
    (hx : Realizes engine x view P)
    (hf : ∀ a, Realizes engine (f a) view' (Q (view a))) :
    Realizes engine (x >>= f) view' fun ds c =>
      ∃ es b us, ds = es ++ us ∧ P es b ∧ Q b us c where
  sound hrun := by
    obtain ⟨a, u, hfirst, hsecond⟩ := run_bind_eq_ok hrun
    obtain ⟨es, hP, hes⟩ := hx.sound hfirst
    obtain ⟨us, hQ, hus⟩ := (hf a).sound hsecond
    exact ⟨es ++ us, ⟨es, view a, us, rfl, hP, hQ⟩, hes.append hus⟩
  complete := by
    rintro t s ds c ⟨es, b, us, rfl, hP, hQ⟩ hanswers
    obtain ⟨s', hes, hus⟩ := Engine.answers_append_iff.mp hanswers
    obtain ⟨a, u, hfirst, rfl, hadvances⟩ := hx.complete hP hes
    obtain rfl := hes.unique hadvances.answers
    obtain ⟨c', v, hsecond, hview, hadvances'⟩ := (hf a).complete hQ hus
    exact ⟨c', v, (run_bind_ok hfirst).trans hsecond, hview,
      hadvances.append hadvances'⟩

/-- A last step that makes no draws turns the result into another. -/
theorem Realizes.finish
    {x : Rolling σ α} {f : α → Rolling σ γ} {δ : Type}
    {view : α → β} {view' : γ → δ} {P : List Draw → β → Prop}
    (hx : Realizes engine x view P)
    (g : β → δ)
    (hf : ∀ a,
      Realizes engine (f a) view' fun ds c => ds = [] ∧ c = g (view a)) :
    Realizes engine (x >>= f) view' fun ds c => ∃ b, P ds b ∧ c = g b := by
  refine (hx.bind (Q := fun b ds c => ds = [] ∧ c = g b) hf).congr ?_
  intro ds c
  constructor
  · rintro ⟨es, b, us, rfl, hP, rfl, rfl⟩
    rw [List.append_nil]
    exact ⟨b, hP, rfl⟩
  · rintro ⟨b, hP, rfl⟩
    exact ⟨ds, b, [], (List.append_nil ds).symm, hP, rfl, rfl⟩

/-- An evaluation in front makes no draws. -/
theorem Realizes.ofEvaluation_bind
    {e : Evaluation α} {f : α → Rolling σ γ} {view : γ → β}
    {P : List Draw → β → Prop}
    {a : α}
    (he : Evaluation.Gives e a)
    (hf : Realizes engine (f a) view P) :
    Realizes engine (ofEvaluation e >>= f) view P := by
  have hrun (t : Table σ) : ∃ m,
      run (ofEvaluation e >>= f) t = run (f a) ⟨m, t.source, t.requests⟩ := by
    refine ⟨(e.run t.memory).2, run_bind_ok ?_⟩
    rw [← he t.memory]
    rfl
  constructor
  · intro t u c hc
    obtain ⟨m, hm⟩ := hrun t
    obtain ⟨ds, hP, hadvances⟩ := hf.sound (hm.symm.trans hc)
    exact ⟨ds, hP, hadvances.answers, hadvances.requests⟩
  · intro t s ds b hP hanswers
    obtain ⟨m, hm⟩ := hrun t
    obtain ⟨c, u, hc, hview, hadvances⟩ :=
      hf.complete (t := ⟨m, t.source, t.requests⟩) hP hanswers
    exact ⟨c, u, hm.trans hc, hview, hadvances.answers, hadvances.requests⟩

theorem gives_setTrace (node : NodeId) (trace : Text) :
    Evaluation.Gives (Memory.setTrace node trace) () :=
  fun _ => rfl

theorem Realizes.settle
    {roll : Rolling σ Outcome} {P : List Draw → Reading → Prop}
    (node : NodeId)
    (h : Realizes engine roll Outcome.toReading P) :
    Realizes engine (settle node roll) Outcome.toReading P := by
  refine Realizes.ofEvaluation_bind (gives_setTrace node []) ?_
  refine (h.finish (fun r => r) fun o => ?_).congr fun ds r => ?_
  · exact Realizes.ofEvaluation_bind (gives_setTrace node o.trace)
      (realizes_pure o _)
  · constructor
    · rintro ⟨s, hP, rfl⟩
      exact hP
    · intro hP
      exact ⟨r, hP, rfl⟩

end Rolling
end DiceNotation
