import DiceNotation.Node.Build
import DiceNotation.Node.Roll

/-!
# Two runs side by side

Two computations match if, from states that correspond, they give results that
correspond and end in states that correspond again.  What corresponds to what
is left open.  Computations that are put together from matching parts match.
-/

namespace DiceNotation

variable {S ε α α' β β' : Type}

/-- From corresponding states, both computations give corresponding results and
end in corresponding states. -/
def Matches (same : S → S → Prop) (R : α → α' → Prop) (x : StateM S α)
    (y : StateM S α') : Prop :=
  ∀ ⦃s t⦄, same s t → R (x.run s).1 (y.run t).1 ∧ same (x.run s).2 (y.run t).2

/-- Corresponding results, or the same failure. -/
inductive Agree (R : α → α' → Prop) : Except ε α → Except ε α' → Prop where
  | ok {a : α} {a' : α'} : R a a' → Agree R (.ok a) (.ok a')
  | error (e : ε) : Agree R (.error e) (.error e)

theorem Agree.mono
    {R R' : α → α' → Prop} {r : Except ε α} {r' : Except ε α'}
    (h : Agree R r r')
    (hR : ∀ a a', R a a' → R' a a') :
    Agree R' r r' := by
  cases h with
  | ok ha => exact .ok (hR _ _ ha)
  | error e => exact .error e

/-- Two results that correspond to the same third one. -/
theorem Agree.join
    {R : α → β → Prop} {R' : α' → β → Prop} {S : α → α' → Prop}
    {r : Except ε α} {r' : Except ε α'} {q : Except ε β}
    (h : Agree R r q)
    (h' : Agree R' r' q)
    (hS : ∀ a a' b, R a b → R' a' b → S a a') :
    Agree S r r' := by
  cases h with
  | ok ha =>
      cases h' with
      | ok ha' => exact .ok (hS _ _ _ ha ha')
  | error e =>
      cases h' with
      | error => exact .error e

/-- From corresponding states, both computations give corresponding results or
fail alike, and end in corresponding states in either case. -/
def MatchesOrFails (same : S → S → Prop) (R : α → α' → Prop)
    (x : ExceptT ε (StateM S) α) (y : ExceptT ε (StateM S) α') : Prop :=
  Matches same (Agree R) (ExceptT.run x) (ExceptT.run y)

variable {same : S → S → Prop} {R : α → α' → Prop} {R' : β → β' → Prop}

namespace Matches

theorem pure
    {a : α} {a' : α'}
    (h : R a a') :
    Matches same R (Pure.pure a) (Pure.pure a') :=
  fun _ _ hsame => ⟨h, hsame⟩

theorem bind
    {x : StateM S α} {y : StateM S α'} {f : α → StateM S β}
    {g : α' → StateM S β'}
    (hx : Matches same R x y)
    (hf : ∀ a a', R a a' → Matches same R' (f a) (g a')) :
    Matches same R' (x >>= f) (y >>= g) := by
  intro s t hsame
  obtain ⟨hresult, hstate⟩ := hx hsame
  exact hf _ _ hresult hstate

/-- After equal results, both go on alike. -/
theorem bind_eq
    {x y : StateM S α} {f : α → StateM S β} {g : α → StateM S β'}
    (hx : Matches same Eq x y)
    (hf : ∀ a, Matches same R' (f a) (g a)) :
    Matches same R' (x >>= f) (y >>= g) :=
  hx.bind fun a _ h => h ▸ hf a

end Matches

namespace MatchesOrFails

theorem pure
    {a : α} {a' : α'}
    (h : R a a') :
    MatchesOrFails same R (Pure.pure a : ExceptT ε (StateM S) α)
      (Pure.pure a') :=
  Matches.pure (.ok h)

theorem throw (e : ε) :
    MatchesOrFails same R (MonadExcept.throw e : ExceptT ε (StateM S) α)
      (MonadExcept.throw e) :=
  Matches.pure (.error e)

/-- What cannot fail matches inside of what can. -/
theorem lift
    {x : StateM S α} {y : StateM S α'}
    (h : Matches same R x y) :
    MatchesOrFails same R (x : ExceptT ε (StateM S) α)
      (y : ExceptT ε (StateM S) α') :=
  fun _ _ hsame => ⟨.ok (h hsame).1, (h hsame).2⟩

theorem mono
    {S' : α → α' → Prop} {x : ExceptT ε (StateM S) α}
    {y : ExceptT ε (StateM S) α'}
    (h : MatchesOrFails same R x y)
    (hR : ∀ a a', R a a' → S' a a') :
    MatchesOrFails same S' x y := by
  intro s t hsame
  obtain ⟨hresult, hstate⟩ := h hsame
  exact ⟨hresult.mono hR, hstate⟩

theorem bind
    {x : ExceptT ε (StateM S) α} {y : ExceptT ε (StateM S) α'}
    {f : α → ExceptT ε (StateM S) β} {g : α' → ExceptT ε (StateM S) β'}
    (hx : MatchesOrFails same R x y)
    (hf : ∀ a a', R a a' → MatchesOrFails same R' (f a) (g a')) :
    MatchesOrFails same R' (x >>= f) (y >>= g) := by
  rw [MatchesOrFails, ExceptT.run_bind, ExceptT.run_bind]
  refine Matches.bind hx ?_
  rintro _ _ (⟨h⟩ | ⟨e⟩)
  · exact hf _ _ h
  · exact Matches.pure (.error e)

/-- After equal results, both go on alike. -/
theorem bind_eq
    {x y : ExceptT ε (StateM S) α}
    {f : α → ExceptT ε (StateM S) β} {g : α → ExceptT ε (StateM S) β'}
    (hx : MatchesOrFails same Eq x y)
    (hf : ∀ a, MatchesOrFails same R' (f a) (g a)) :
    MatchesOrFails same R' (x >>= f) (y >>= g) :=
  hx.bind fun a _ h => h ▸ hf a

/-- The same result from no computation at all. -/
theorem ofExcept (r : Except ε α) :
    MatchesOrFails same Eq (MonadExcept.ofExcept r : ExceptT ε (StateM S) α)
      (MonadExcept.ofExcept r) := by
  cases r with
  | ok a => exact pure rfl
  | error e => exact throw e

end MatchesOrFails
end DiceNotation
