import DiceNotation.Node.Build
import DiceNotation.Proofs.Node.Extreme

/-!
# When building is accepted

Building a node changes the memory, but whether it is accepted does not depend
on the memory.  For every way to build a node there is a condition under which
it is accepted and a description of the node that it then returns.
-/

namespace DiceNotation

namespace Building

variable {α β : Type}

/-- What building returns, or why it is refused, from a given memory. -/
def outcome (b : Building α) (m : Memory) : Except Error α :=
  ((ExceptT.run b).run m).1

/-- Building can return this result. -/
def Returns (b : Building α) (a : α) : Prop :=
  ∃ m, b.outcome m = .ok a

/-- Acceptance exactly under a condition, with a result as described, or
refusal for one of the causes. -/
def Accepted (E : Error → Prop) (condition : Prop) (result : α → Prop) :
    Except Error α → Prop
  | .ok a => condition ∧ result a
  | .error e => condition → E e

/-- Building is accepted exactly under a condition, from every memory, unless
it is refused for one of the causes, and then its result is as described. -/
def AcceptsUnless (E : Error → Prop) (b : Building α) (condition : Prop)
    (result : α → Prop) : Prop :=
  ∀ m, Accepted E condition result (b.outcome m)

/-- Building is accepted exactly under a condition, from every memory, and
then its result is as described. -/
abbrev Accepts (b : Building α) (condition : Prop) (result : α → Prop) : Prop :=
  AcceptsUnless (fun _ => False) b condition result

variable {E : Error → Prop}

theorem AcceptsUnless.of_returns
    {b : Building α} {C : Prop} {R : α → Prop} {a : α}
    (h : AcceptsUnless E b C R)
    (ha : b.Returns a) :
    C ∧ R a := by
  obtain ⟨m, hm⟩ := ha
  have hresult := h m
  rw [hm] at hresult
  exact hresult

theorem Accepts.exists_ok
    {b : Building α} {C : Prop} {R : α → Prop}
    (h : Accepts b C R)
    (hC : C)
    (m : Memory) :
    ∃ a, b.outcome m = .ok a ∧ R a := by
  have hresult := h m
  cases hout : b.outcome m with
  | ok a =>
      rw [hout] at hresult
      exact ⟨a, rfl, hresult.2⟩
  | error e =>
      rw [hout] at hresult
      exact absurd hC hresult

theorem AcceptsUnless.congr
    {b : Building α} {C C' : Prop} {R R' : α → Prop}
    (h : AcceptsUnless E b C R)
    (hC : C ↔ C')
    (hR : C → ∀ a, R a → R' a) :
    AcceptsUnless E b C' R' := by
  intro m
  have hresult := h m
  cases hout : b.outcome m with
  | ok a =>
      rw [hout] at hresult
      exact ⟨hC.mp hresult.1, hR hresult.1 a hresult.2⟩
  | error e =>
      rw [hout] at hresult
      intro hC'
      exact hresult (hC.mpr hC')

theorem accepts_pure
    {a : α} {C : Prop} {R : α → Prop}
    (hC : C)
    (hR : R a) :
    AcceptsUnless E (pure a) C R :=
  fun _ => ⟨hC, hR⟩

theorem accepts_throw
    {e : Error} {C : Prop} {R : α → Prop}
    (hC : ¬C) :
    AcceptsUnless E (throw e) C R :=
  fun _ h => absurd h hC

theorem run_bind (b : Building α) (f : α → Building β) (m : Memory) :
    (ExceptT.run (b >>= f)).run m =
      match (ExceptT.run b).run m with
      | (.ok a, after) => (ExceptT.run (f a)).run after
      | (.error e, after) => (.error e, after) := by
  simp only [ExceptT.run_bind, StateT.run_bind]
  change (match (ExceptT.run b).run m with | (x, after) => _) = _
  rcases (ExceptT.run b).run m with ⟨_ | _, _⟩ <;> rfl

theorem outcome_bind (b : Building α) (f : α → Building β) (m : Memory) :
    (b >>= f).outcome m =
      match (ExceptT.run b).run m with
      | (.ok a, after) => (f a).outcome after
      | (.error e, _) => .error e := by
  rw [outcome, run_bind]
  rcases (ExceptT.run b).run m with ⟨_ | _, _⟩ <;> rfl

/-- What holds of the outcome of two steps, if it holds of the second outcome
after every result of the first, and of a refusal of the first. -/
theorem outcome_bind_of
    {b : Building α} {f : α → Building β} {P : Except Error α → Prop}
    {Q : Except Error β → Prop}
    (hb : ∀ m, P (b.outcome m))
    (hok : ∀ a, P (.ok a) → ∀ m, Q ((f a).outcome m))
    (herror : ∀ e, P (.error e) → Q (.error e)) :
    ∀ m, Q ((b >>= f).outcome m) := by
  intro m
  have hfirst := hb m
  rw [outcome_bind]
  unfold outcome at hfirst
  rcases hrun : (ExceptT.run b).run m with ⟨e | a, after⟩
  · rw [hrun] at hfirst
    exact herror e hfirst
  · rw [hrun] at hfirst
    exact hok a hfirst after

theorem AcceptsUnless.bind
    {b : Building α} {f : α → Building β} {C C' : Prop}
    {R : α → Prop} {R' : β → Prop}
    (hb : AcceptsUnless E b C R)
    (hf : C → ∀ a, R a → AcceptsUnless E (f a) C' R') :
    AcceptsUnless E (b >>= f) (C ∧ C') R' := by
  refine outcome_bind_of hb ?_ fun e hC h => hC h.1
  rintro a ⟨hC, ha⟩
  exact (hf hC a ha).congr (by simp [hC]) fun _ _ h => h

/-- A last step that cannot be refused turns the result into another. -/
theorem AcceptsUnless.finish
    {b : Building α} {C : Prop} {R : α → Prop} {R' : β → Prop}
    (hb : AcceptsUnless E b C R)
    (g : α → β)
    (hg : ∀ a, R a → R' (g a)) :
    AcceptsUnless E (b >>= fun a => pure (g a)) C R' := by
  have h := hb.bind fun _ a ha => accepts_pure (C := True) trivial (hg a ha)
  exact h.congr (and_iff_left trivial) fun _ _ h => h

/-- A first step that is always accepted leaves the condition to the rest. -/
theorem AcceptsUnless.andThen
    {b : Building α} {f : α → Building β} {C : Prop}
    {R : α → Prop} {R' : β → Prop}
    (hb : AcceptsUnless E b True R)
    (hf : ∀ a, R a → AcceptsUnless E (f a) C R') :
    AcceptsUnless E (b >>= f) C R' :=
  (hb.bind fun _ => hf).congr (by simp) fun _ _ h => h

/-- An evaluation inside of building is always accepted. -/
theorem accepts_evaluation
    {x : Evaluation α} {R : α → Prop}
    (h : ∀ m, R (x.run m).1) :
    AcceptsUnless E (x : Building α) True R :=
  fun m => ⟨trivial, h m⟩

theorem accepts_gives
    {x : Evaluation α} {a : α}
    (h : Evaluation.Gives x a) :
    Accepts (x : Building α) True fun r => r = a :=
  accepts_evaluation h

end Building

namespace Node

/-- The number that results of the node are compared with when it explodes. -/
def limit (threshold : Option Int) (node : Node) : Int :=
  threshold.getD (node.extreme .greatest)

/-- By its bounds, the node calls for another roll whatever it shows. -/
def Endless (comparator : Comparator) (threshold : Option Int)
    (node : Node) : Prop :=
  comparator.isEndless (node.limit threshold) (node.extreme .least)
    (node.extreme .greatest) = true

/-- The inner node of an explosion that is sure to stop: its members have exact
bounds, and neither they nor the node itself are endless. -/
structure Explodable (comparator : Comparator) (threshold : Option Int)
    (inner : Node) : Prop where
  members_ne_nil : inner.members ≠ []
  exact_members : ∀ member ∈ inner.members, member.isExact = true
  not_endless : ¬Endless comparator threshold inner
  not_endless_members :
    ∀ member ∈ inner.members, ¬Endless comparator threshold member

end Node

namespace Build

open Building Node

theorem accepts_newNode : Accepts newNode True fun _ => True :=
  accepts_evaluation fun _ => trivial

theorem accepts_die (d : Die) :
    Accepts (die d) True fun node => ∃ id, node = .die id d :=
  accepts_newNode.andThen fun id _ => accepts_pure trivial ⟨id, rfl⟩

theorem accepts_pool (items : List Node) :
    Accepts (pool (items.map some)) True
      fun node => ∃ id, node = .pool id items := by
  have hitems : (items.map some).mapM id = some items := by
    induction items with
    | nil => rfl
    | cons item rest ih => simp [ih]
  rw [pool, hitems]
  exact accepts_newNode.andThen fun id _ => accepts_pure trivial ⟨id, rfl⟩

theorem accepts_copies (node : Node) (n : Nat) :
    Accepts (copies node n : Evaluation (List Node)) True fun items =>
      ∃ ids : List NodeId,
        ids.length = n ∧ items = ids.map fun id => node.withId id := by
  apply accepts_evaluation
  intro m
  induction n generalizing m with
  | zero => exact ⟨[], rfl, rfl⟩
  | succ n ih =>
      obtain ⟨ids, hlength, hids⟩ := ih ((copy node).run m).2
      refine ⟨m.fresh :: ids, by simp [hlength], ?_⟩
      rw [List.map_cons, ← hids]
      rfl

theorem accepts_repeated (node : Node) (count : Int) :
    Accepts (repeated node count) (1 ≤ count ∧ count ≤ mostCopies) fun r =>
      ∃ id, ∃ ids : List NodeId, ids.length = count.toNat ∧
        r = .pool id (ids.map fun id => node.withId id) := by
  unfold repeated
  by_cases hlow : count < 1
  · rw [if_pos hlow]
    exact accepts_throw (by omega)
  · rw [if_neg hlow]
    by_cases hhigh : (mostCopies : Int) < count
    · rw [if_pos hhigh]
      exact accepts_throw (by omega)
    · rw [if_neg hhigh]
      refine (accepts_copies node count.toNat).andThen ?_
      intro items hitems
      obtain ⟨ids, hlength, rfl⟩ := hitems
      exact accepts_newNode.andThen fun id _ =>
        accepts_pure (by omega) ⟨id, ids, hlength, rfl⟩

theorem accepts_arithmetic (inner : Node) (op : Operator)
    (operand : Int) (tracer : Tracer) :
    Accepts (arithmetic (some inner) op operand tracer)
      (0 ≤ operand ∧ ¬(op = .divide ∧ operand = 0)) fun node =>
        ∃ id, node = .arithmetic id tracer op operand.toNat inner := by
  dsimp only [arithmetic]
  by_cases hnegative : operand < 0
  · rw [if_pos hnegative]
    exact accepts_throw (by omega)
  · rw [if_neg hnegative]
    by_cases hzero : op = .divide ∧ operand = 0
    · rw [if_pos hzero]
      exact accepts_throw fun h => h.2 hzero
    · rw [if_neg hzero]
      exact accepts_newNode.andThen fun id _ =>
        accepts_pure ⟨by omega, hzero⟩ ⟨id, rfl⟩

theorem accepts_dropKeep
    (inner : Node) (selection : Selection) (threshold : Int) (tracer : Tracer) :
    Accepts (dropKeep (some inner) selection threshold tracer)
      (inner.members ≠ [] ∧ 0 ≤ threshold ∧ threshold ≤ inner.members.length)
      fun node =>
        ∃ id, node = .dropKeep id tracer selection threshold.toNat inner := by
  dsimp only [dropKeep]
  by_cases hempty : inner.members = []
  · rw [if_pos hempty]
    exact accepts_throw fun h => h.1 hempty
  · rw [if_neg hempty]
    by_cases hnegative : threshold < 0
    · rw [if_pos hnegative]
      exact accepts_throw (by omega)
    · rw [if_neg hnegative]
      by_cases hmany : (inner.members.length : Int) < threshold
      · rw [if_pos hmany]
        exact accepts_throw (by omega)
      · rw [if_neg hmany]
        exact accepts_newNode.andThen fun id _ =>
          accepts_pure ⟨hempty, by omega, by omega⟩ ⟨id, rfl⟩

theorem accepts_requireExactBounds (members : List Node) :
    Accepts (requireExactBounds members)
      (∀ member ∈ members, member.isExact = true)
      fun _ => True := by
  induction members with
  | nil => exact accepts_pure (by simp) trivial
  | cons member rest ih =>
      rw [requireExactBounds]
      refine (accepts_gives (gives_hasExactBounds member)).andThen ?_
      intro b hb
      subst hb
      cases hexact : member.isExact with
      | true => exact ih.congr (by simp [hexact]) fun _ _ h => h
      | false => exact accepts_throw (by simp [hexact])

theorem accepts_requireEnd
    (comparator : Comparator) (threshold : Option Int)
    (node : Node) (text : Text) :
    Accepts (requireEnd comparator threshold node text)
      (¬Endless comparator threshold node) fun _ => True := by
  unfold requireEnd
  refine (accepts_gives (gives_bound node .least)).andThen ?_
  intro low hlow
  refine (accepts_gives (gives_bound node .greatest)).andThen ?_
  intro high hhigh
  subst hlow hhigh
  dsimp only
  by_cases hendless : Endless comparator threshold node
  · rw [if_pos (by exact hendless)]
    exact accepts_throw fun h => h hendless
  · rw [if_neg (by exact hendless)]
    exact accepts_pure hendless trivial

theorem accepts_requireEnds
    (comparator : Comparator) (threshold : Option Int) (members : List Node) :
    Accepts (requireEnds comparator threshold members)
      (∀ member ∈ members, ¬Endless comparator threshold member)
      fun _ => True := by
  induction members with
  | nil => exact accepts_pure (by simp) trivial
  | cons member rest ih =>
      refine ((accepts_requireEnd comparator threshold member
        member.render).bind fun _ _ _ => ih).congr ?_ fun _ _ h => h
      rw [List.forall_mem_cons]

theorem accepts_explode
    (inner : Node) (comparator : Comparator)
    (threshold : Option Int) (tracer : Tracer) :
    Accepts (explode (some inner) comparator threshold tracer)
      (Explodable comparator threshold inner) fun node =>
        ∃ id, node = .explode id tracer comparator threshold inner := by
  dsimp only [explode]
  by_cases hempty : inner.members = []
  · rw [if_pos hempty]
    exact accepts_throw fun h => h.members_ne_nil hempty
  · rw [if_neg hempty]
    apply accepts_newNode.andThen
    intro id _
    have hchecks :=
      (accepts_requireExactBounds inner.members).bind fun _ _ _ =>
        (accepts_requireEnd comparator threshold inner
          (Node.explode id tracer comparator threshold inner).render).bind
            fun _ _ _ =>
              (accepts_requireEnds comparator threshold inner.members).bind
                fun _ _ _ =>
                  accepts_pure
                    (a := Node.explode id tracer comparator threshold inner)
                    (C := True)
                    (R := fun node => ∃ id,
                      node = .explode id tracer comparator threshold inner)
                    trivial ⟨id, rfl⟩
    refine hchecks.congr ⟨?_, ?_⟩ fun _ _ h => h
    · rintro ⟨hexact, hinner, hmembers, -⟩
      exact ⟨hempty, hexact, hinner, hmembers⟩
    · intro h
      exact ⟨h.exact_members, h.not_endless, h.not_endless_members, trivial⟩

end Build
end DiceNotation
