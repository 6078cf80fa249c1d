import DiceNotation.Parse.Expression
import DiceNotation.Proofs.Node.Refusal
import DiceNotation.Proofs.Parse.Words

/-!
# What a reader does with a text

A reader can read a text exactly under a condition, and then returns a result
and the rest of the text.  Without the condition it need not be refused at
once: it can also return in front of a die that nothing can make sense of, so
that reading is refused later.  Readers that build nodes may also be refused
for the nodes, which can be left open.
-/

namespace DiceNotation
namespace Parse

open Building Grammar

/-! ## Readers by the depth of parentheses -/

section Levels

variable (tracer : Tracer) (whole : Text)

/-- The reader of groups where parentheses may nest as deep as said. -/
def groupAt : Nat → Reader Node
  | 0 => group whole none
  | depth + 1 => group whole (some (expression tracer whole depth))

/-- The reader of groups with selections. -/
def selectedAt (depth : Nat) : Reader Node := fun s => do
  let (node, rest) ← groupAt tracer whole depth s
  selected tracer node rest

/-- The reader of terms. -/
def termAt (depth : Nat) : Reader Node :=
  term tracer whole (groupAt tracer whole depth)

theorem expression_eq (depth : Nat) :
    expression tracer whole depth = sum (termAt tracer whole depth) := by
  cases depth <;> rfl

theorem termAt_eq (depth : Nat) (s : Text) :
    termAt tracer whole depth s =
      (do
        let (node, rest) ← selectedAt tracer whole depth s
        let (node, rest) ← exploded tracer node rest
        suffixed tracer whole mostSuffixes node rest) := by
  simp only [termAt, term, selectedAt, bind_assoc]

theorem group_eq_dice
    {s : Text}
    (hs : ∀ more, s ≠ '(' :: more)
    (inner : Option (Reader Node)) :
    group whole inner s = dice whole s := by
  unfold group
  split
  · exact absurd rfl (hs _)
  · rfl

theorem groupAt_eq_dice
    {s : Text}
    (hs : ∀ more, s ≠ '(' :: more)
    (depth : Nat) :
    groupAt tracer whole depth s = dice whole s := by
  cases depth with
  | zero => rw [groupAt, group_eq_dice whole hs]
  | succ depth => rw [groupAt, group_eq_dice whole hs]

end Levels

/-! ## Reading exactly under a condition -/

/-- The text starts with a die, at a place where no die can be. -/
def Stuck (rest : Text) : Prop :=
  ∃ more, rest = 'D' :: more

/-- Reading exactly under a condition, with a result as described in front of
the rest, or refusal for one of the causes; without the condition, refusal or
getting stuck. -/
def ReadsTo {α : Type} (E : Error → Prop) (condition : Prop) (result : α → Prop)
    (rest : Text) : Except Error (α × Text) → Prop
  | .ok (a, r) => condition ∧ result a ∧ r = rest ∨ ¬condition ∧ Stuck r
  | .error e => condition → E e

/-- From every memory, reading returns a result as described in front of the
rest, exactly under a condition, unless it is refused for one of the causes;
without the condition, it is refused or gets stuck. -/
def ReadsUnless {α : Type} (E : Error → Prop) (b : Building (α × Text))
    (condition : Prop) (result : α → Prop) (rest : Text) : Prop :=
  ∀ m, ReadsTo E condition result rest (b.outcome m)

/-- From every memory, reading returns a result as described in front of the
rest, exactly under a condition; otherwise it is refused or gets stuck. -/
abbrev Reads {α : Type} (b : Building (α × Text)) (condition : Prop)
    (result : α → Prop) (rest : Text) : Prop :=
  ReadsUnless (fun _ => False) b condition result rest

variable {α β : Type} {E : Error → Prop} {b : Building (α × Text)} {C C' : Prop}
  {R : α → Prop} {R' : β → Prop} {rest rest' : Text}

theorem ReadsUnless.congr
    {S : α → Prop}
    (h : ReadsUnless E b C R rest)
    (hC : C ↔ C')
    (hR : C → ∀ a, R a → S a) :
    ReadsUnless E b C' S rest := by
  intro m
  have hm := h m
  rw [← hC]
  rcases hout : b.outcome m with e | ⟨a, r⟩
  · rw [hout] at hm
    exact hm
  · rw [hout] at hm
    rcases hm with ⟨hcondition, ha, hr⟩ | hstuck
    · exact Or.inl ⟨hcondition, hR hcondition a ha, hr⟩
    · exact Or.inr hstuck

theorem reads_pure
    {a : α}
    (hC : C)
    (hR : R a) :
    ReadsUnless E (pure (a, rest)) C R rest :=
  fun _ => Or.inl ⟨hC, hR, rfl⟩

theorem reads_stuck
    {r : Text}
    (a : α)
    (hr : Stuck r)
    (hC : ¬C) :
    ReadsUnless E (pure (a, r)) C R rest :=
  fun _ => Or.inr ⟨hC, hr⟩

theorem reads_refuse
    (fault : SyntaxFault)
    (hC : ¬C) :
    ReadsUnless E (refuse fault) C R rest :=
  fun _ h => absurd h hC

theorem reads_of_accepts
    (h : AcceptsUnless E b C fun p => R p.1 ∧ p.2 = rest) :
    ReadsUnless E b C R rest := by
  intro m
  have hm := h m
  rcases hout : b.outcome m with e | ⟨a, r⟩
  · rw [hout] at hm
    exact hm
  · rw [hout] at hm
    exact Or.inl hm

theorem reads_stuck_of_accepts
    (h : AcceptsUnless E b True fun p => Stuck p.2) :
    ReadsUnless E b False R rest := by
  intro m
  have hm := h m
  rcases hout : b.outcome m with e | ⟨a, r⟩
  · exact False.elim
  · rw [hout] at hm
    exact Or.inr ⟨id, hm.2⟩

/-- After a step that never gets stuck, reading goes on. -/
theorem reads_bind_of_accepts
    {x : Building α} {f : α → Building (β × Text)} {Q : α → Prop}
    (hx : AcceptsUnless E x C Q)
    (hf : C → ∀ a, Q a → ReadsUnless E (f a) C' R' rest) :
    ReadsUnless E (x >>= f) (C ∧ C') R' rest := by
  refine outcome_bind_of hx ?_ fun e hC h => hC h.1
  rintro a ⟨hC, ha⟩
  exact (hf hC a ha).congr (by simp [hC]) fun _ _ h => h

/-- After a step that is refused for one of the causes only, reading goes on. -/
theorem reads_bind_of_refusedFor
    {x : Building α} {f : α → Building (β × Text)}
    (hx : x.RefusedFor E)
    (hf : ∀ a, ReadsUnless E (f a) C R' rest) :
    ReadsUnless E (x >>= f) C R' rest :=
  (reads_bind_of_accepts hx fun _ a _ => hf a).congr (true_and C).to_iff
    fun _ _ h => h

/-- After a step that may get stuck, reading goes on and stays stuck. -/
theorem ReadsUnless.bind
    {f : α × Text → Building (β × Text)}
    (hb : ReadsUnless E b C R rest)
    (hf : C → ∀ a, R a → ReadsUnless E (f (a, rest)) C' R' rest')
    (hstuck : ∀ a r, Stuck r → ReadsUnless E (f (a, r)) False R' rest') :
    ReadsUnless E (b >>= f) (C ∧ C') R' rest' := by
  refine outcome_bind_of hb ?_ fun e hC h => hC h.1
  rintro ⟨a, r⟩ (⟨hC, ha, rfl⟩ | ⟨hC, hr⟩)
  · exact (hf hC a ha).congr (by simp [hC]) fun _ _ h => h
  · exact (hstuck a r hr).congr (by simp [hC]) fun h => h.elim

/-- A last step that is sure to succeed leaves the condition alone. -/
theorem ReadsUnless.andThen
    {f : α × Text → Building (β × Text)}
    (hb : ReadsUnless E b C R rest)
    (hf : C → ∀ a, R a → ReadsUnless E (f (a, rest)) True R' rest')
    (hstuck : ∀ a r, Stuck r → ReadsUnless E (f (a, r)) False R' rest') :
    ReadsUnless E (b >>= f) C R' rest' :=
  (hb.bind hf hstuck).congr (and_true C).to_iff fun _ _ h => h

/-- What refuses a text that starts with a die does not get stuck. -/
theorem ReadsUnless.accepts_bind
    {f : α × Text → Building β}
    (hb : ReadsUnless E b C R rest)
    (hf : C → ∀ a, R a → AcceptsUnless E (f (a, rest)) C' R')
    (hstuck : ∀ a r, Stuck r → AcceptsUnless E (f (a, r)) False R') :
    AcceptsUnless E (b >>= f) (C ∧ C') R' := by
  refine outcome_bind_of hb ?_ fun e hC h => hC h.1
  rintro ⟨a, r⟩ (⟨hC, ha, rfl⟩ | ⟨hC, hr⟩)
  · exact (hf hC a ha).congr (by simp [hC]) fun _ _ h => h
  · exact (hstuck a r hr).congr (by simp [hC]) fun h => h.elim

theorem scanned_ok {a : α} : (scanned (.ok a) : Building α) = pure a :=
  rfl

theorem scanned_error
    {fault : SyntaxFault} :
    (scanned (.error fault) : Building α) = refuse fault :=
  rfl

/-! ## Stages of a term -/

section Stages

variable {tracer : Tracer} {whole rest : Text} {node : Node}

theorem selected_none
    (hrest : SelectionEnds rest) :
    selected tracer node rest = pure (node, rest) := by
  rw [selected, selection_none hrest]
  rfl

theorem exploded_none
    (hrest : ∀ more, rest ≠ '!' :: more) :
    exploded tracer node rest = pure (node, rest) := by
  unfold exploded
  split
  · exact absurd rfl (hrest _)
  · rfl

theorem suffixed_none
    (allowed : Nat)
    (hrest : AfterTerm rest) :
    suffixed tracer whole allowed node rest = pure (node, rest) := by
  rw [suffixed, suffix_none whole hrest]
  rfl

theorem suffixed_stuck
    (allowed : Nat)
    (hrest : Stuck rest) :
    suffixed tracer whole allowed node rest = pure (node, rest) := by
  obtain ⟨more, rfl⟩ := hrest
  rw [suffixed]
  rfl

theorem suffixed_of_number
    {op : Operator} {s : Text} {n : Nat}
    (hs : Number s n)
    (allowed : Nat)
    (hrest : TermEnds rest) :
    suffixed tracer whole (allowed + 1) node (op.symbol :: (s ++ rest)) =
      (do
        let node ← Build.arithmetic (some node) op n tracer
        suffixed tracer whole allowed node rest) := by
  rw [suffixed, suffix_of_number hs whole hrest]
  rfl

/-- A single node is returned as it is, and other nodes are put in a pool. -/
theorem accepts_pooled {E : Error → Prop} (nodes : List Node) (rest : Text) :
    AcceptsUnless E
      (match (nodes, rest) with
        | ([node], rest) => pure (node, rest)
        | (nodes, rest) => do return (← Build.pool (nodes.map some), rest) :
        Building (Node × Text))
      True fun p =>
        (nodes = [p.1] ∨ nodes.length ≠ 1 ∧ ∃ id, p.1 = .pool id nodes) ∧
        p.2 = rest := by
  have hpool (nodes : List Node) (hlength : nodes.length ≠ 1) :
      AcceptsUnless E (do return (← Build.pool (nodes.map some), rest))
        True fun p =>
          (nodes = [p.1] ∨ nodes.length ≠ 1 ∧ ∃ id, p.1 = .pool id nodes) ∧
          p.2 = rest :=
    ((Build.accepts_pool nodes).mono fun _ => False.elim).finish _
      fun _ hnode => ⟨Or.inr ⟨hlength, hnode⟩, rfl⟩
  match nodes with
  | [node] => exact accepts_pure trivial ⟨Or.inl rfl, rfl⟩
  | [] => exact hpool [] (by decide)
  | node :: node' :: nodes => exact hpool (node :: node' :: nodes) (by simp)

end Stages

end Parse
end DiceNotation
