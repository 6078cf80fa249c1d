import DiceNotation.Proofs.Roll.Table
import DiceNotation.Proofs.Safety.Machine

/-!
# Guarded computations beside plain ones

A guarded evaluation or roll does the same as a plain one, but it checks its
operations and can stop with a fault.  It guards the plain one if the only fault
is that a sum was crowded: otherwise both end in the same state, with results
that correspond.  Computations that are put together from guarded parts are
guarded.
-/

namespace DiceNotation

/-- A checked operation as a part of a guarded computation. -/
def Fault.check {μ : Type → Type} [Monad μ] {α : Type} (r : Except Fault α) :
    ExceptT Fault μ α :=
  ExceptT.mk (pure r)

variable {σ α α' β β' : Type}

namespace Evaluation

variable {R : α → α' → Prop} {Q : β → β' → Prop}

/-- A guarded evaluation ended like a plain one, or it stopped as crowded. -/
inductive Follows (R : α → α' → Prop) :
    Except Fault α × Memory → α' × Memory → Prop where
  | ok {a : α} {a' : α'} (m : Memory) : R a a' → Follows R (.ok a, m) (a', m)
  | crowded (m : Memory) (plain : α' × Memory) :
      Follows R (.error .crowded, m) plain

/-- Whatever the memory holds, the guarded evaluation follows the plain one. -/
def Guards (R : α → α' → Prop) (x : ExceptT Fault Evaluation α)
    (y : Evaluation α') : Prop :=
  ∀ m, Follows R ((ExceptT.run x).run m) (y.run m)

theorem guards_pure {a : α} {a' : α'} (h : R a a') :
    Guards R (pure a) (pure a') :=
  fun m => .ok m h

/-- An evaluation without partial operations. -/
theorem guards_lift (y : Evaluation α) :
    Guards Eq (y : ExceptT Fault Evaluation α) y :=
  fun m => .ok (y.run m).2 rfl

theorem Guards.bind
    {x : ExceptT Fault Evaluation α} {y : Evaluation α'}
    {f : α → ExceptT Fault Evaluation β} {g : α' → Evaluation β'}
    (hx : Guards R x y)
    (hf : ∀ a a', R a a' → Guards Q (f a) (g a')) :
    Guards Q (x >>= f) (y >>= g) := by
  intro m
  have hfirst := hx m
  have hplain : (y >>= g).run m = (g (y.run m).1).run (y.run m).2 := rfl
  rw [ExceptT.run_bind, StateT.run_bind, hplain]
  revert hfirst
  generalize (ExceptT.run x).run m = checked
  generalize y.run m = plain
  rintro (⟨after, ha⟩ | ⟨after, _⟩)
  · exact hf _ _ ha after
  · exact .crowded after _

/-- A checked operation in front spares its result for the rest. -/
theorem Guards.check_bind
    {P : α → Prop} {r : Except Fault α}
    {f : α → ExceptT Fault Evaluation β} {y : Evaluation β'}
    (hr : Fault.Spares P r)
    (hf : ∀ a, P a → Guards Q (f a) y) :
    Guards Q (Fault.check r >>= f) y := by
  cases hr with
  | ok ha => exact hf _ ha
  | crowded => exact fun m => .crowded m _

/-- A checked operation that has a result. -/
theorem guards_check_ok
    {a : α} {f : α → ExceptT Fault Evaluation β} {y : Evaluation β'}
    (h : Guards Q (f a) y) :
    Guards Q (Fault.check (.ok a) >>= f) y :=
  h

theorem Follows.mono
    {S : α → α' → Prop} {checked : Except Fault α × Memory}
    {plain : α' × Memory}
    (h : Follows R checked plain)
    (hRS : ∀ a a', R a a' → S a a') :
    Follows S checked plain := by
  cases h with
  | ok after ha => exact .ok after (hRS _ _ ha)
  | crowded after => exact .crowded after plain

theorem Guards.mono
    {S : α → α' → Prop} {x : ExceptT Fault Evaluation α} {y : Evaluation α'}
    (h : Guards R x y)
    (hRS : ∀ a a', R a a' → S a a') :
    Guards S x y :=
  fun m => (h m).mono hRS

end Evaluation

namespace Rolling

variable {R : α → α' → Prop} {Q : β → β' → Prop}

/-- A guarded roll ended or was broken off like a plain one, or it stopped as
crowded. -/
inductive Follows (R : α → α' → Prop) :
    Except Abort (Except Fault α) × Table σ →
      Except Abort α' × Table σ → Prop where
  | ok {a : α} {a' : α'} (t : Table σ) :
      R a a' → Follows R (.ok (.ok a), t) (.ok a', t)
  | aborted (e : Abort) (t : Table σ) : Follows R (.error e, t) (.error e, t)
  | crowded (t : Table σ) (plain : Except Abort α' × Table σ) :
      Follows R (.ok (.error .crowded), t) plain

/-- At every table, the guarded roll follows the plain one. -/
def Guards (R : α → α' → Prop) (x : ExceptT Fault (Rolling σ) α)
    (y : Rolling σ α') : Prop :=
  ∀ t, Follows R (run (ExceptT.run x) t) (run y t)

theorem guards_pure {a : α} {a' : α'} (h : R a a') :
    Guards (σ := σ) R (pure a) (pure a') :=
  fun t => .ok t h

theorem guards_throw (e : Abort) :
    Guards (σ := σ) R (ExceptT.lift (throw e)) (throw e) :=
  fun t => .aborted e t

/-- A roll without partial operations, whose results have a property. -/
theorem guards_lift_of
    {P : α → Prop} {y : Rolling σ α}
    (h : ∀ t a u, run y t = (.ok a, u) → P a) :
    Guards (fun a a' => a = a' ∧ P a') (ExceptT.lift y) y := by
  intro t
  have hrun :
      run (ExceptT.run (ExceptT.lift y : ExceptT Fault (Rolling σ) α)) t =
        run (y >>= fun a => pure (.ok a)) t := by
    rw [ExceptT.run_lift, map_eq_pure_bind]
  rw [hrun, run_bind]
  rcases hplain : run y t with ⟨e | a, u⟩
  · exact .aborted e u
  · exact .ok u ⟨rfl, h t a u hplain⟩

theorem Guards.bind
    {x : ExceptT Fault (Rolling σ) α} {y : Rolling σ α'}
    {f : α → ExceptT Fault (Rolling σ) β} {g : α' → Rolling σ β'}
    (hx : Guards R x y)
    (hf : ∀ a a', R a a' → Guards Q (f a) (g a')) :
    Guards Q (x >>= f) (y >>= g) := by
  intro t
  have hfirst := hx t
  rw [ExceptT.run_bind, run_bind, run_bind]
  revert hfirst
  generalize run (ExceptT.run x) t = checked
  generalize run y t = plain
  rintro (⟨after, ha⟩ | ⟨e, after⟩ | ⟨after, _⟩)
  · exact hf _ _ ha after
  · exact .aborted e after
  · exact .crowded after _

/-- A checked operation in front spares its result for the rest. -/
theorem Guards.check_bind
    {P : α → Prop} {r : Except Fault α} {f : α → ExceptT Fault (Rolling σ) β}
    {y : Rolling σ β'}
    (hr : Fault.Spares P r)
    (hf : ∀ a, P a → Guards Q (f a) y) :
    Guards Q (Fault.check r >>= f) y := by
  cases hr with
  | ok ha => exact hf _ ha
  | crowded => exact fun t => .crowded t _

/-- A checked operation that has a result. -/
theorem guards_check_ok
    {a : α} {f : α → ExceptT Fault (Rolling σ) β} {y : Rolling σ β'}
    (h : Guards Q (f a) y) :
    Guards Q (Fault.check (.ok a) >>= f) y :=
  h

theorem Follows.mono
    {S : α → α' → Prop} {checked : Except Abort (Except Fault α) × Table σ}
    {plain : Except Abort α' × Table σ}
    (h : Follows R checked plain)
    (hRS : ∀ a a', R a a' → S a a') :
    Follows S checked plain := by
  cases h with
  | ok after ha => exact .ok after (hRS _ _ ha)
  | aborted e after => exact .aborted e after
  | crowded after => exact .crowded after plain

/-- A guarded roll that ends has the result of the plain one. -/
theorem Follows.eq_of_ok
    {a : α} {t : Table σ} {plain : Except Abort α × Table σ}
    (h : Follows Eq (.ok (.ok a), t) plain) :
    plain = (.ok a, t) := by
  cases h with
  | ok after hsame => rw [hsame]

theorem Guards.mono
    {S : α → α' → Prop} {x : ExceptT Fault (Rolling σ) α} {y : Rolling σ α'}
    (h : Guards R x y)
    (hRS : ∀ a a', R a a' → S a a') :
    Guards S x y :=
  fun t => (h t).mono hRS

theorem guards_lift (y : Rolling σ α) : Guards Eq (ExceptT.lift y) y := by
  apply (guards_lift_of (P := fun _ => True) fun _ _ _ _ => trivial).mono
  intro _ _ h
  exact h.1

/-- A guarded evaluation at a table. -/
def ofGuarded (x : ExceptT Fault Evaluation α) : ExceptT Fault (Rolling σ) α :=
  ExceptT.mk (ofEvaluation (ExceptT.run x))

theorem follows_of_evaluation
    {checked : Except Fault α × Memory} {plain : α' × Memory}
    (h : Evaluation.Follows R checked plain)
    (t : Table σ) :
    Follows R (.ok checked.1, ⟨checked.2, t.source, t.requests⟩)
      (.ok plain.1, ⟨plain.2, t.source, t.requests⟩) := by
  cases h with
  | ok after ha => exact .ok _ ha
  | crowded after => exact .crowded _ _

theorem guards_ofGuarded
    {x : ExceptT Fault Evaluation α} {y : Evaluation α'}
    (h : Evaluation.Guards R x y) :
    Guards (σ := σ) R (ofGuarded x) (ofEvaluation y) :=
  fun t => follows_of_evaluation (h t.memory) t

end Rolling
end DiceNotation
