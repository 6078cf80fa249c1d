import DiceNotation.Proofs.Notation.Reparse
import DiceNotation.Proofs.Roll.Schedule

/-!
# Runs of the same die

A pool of dice is written with a count in front of every run of the same die.
Nothing gets lost by that: the notation is read as a tree with the same dice in
the same order, unless a run is longer than a count may be.

Dice are written differently unless they are the same, so it makes no difference
whether runs are found by comparing dice or by comparing what is written.
-/

namespace DiceNotation

open Building

/-! ## Runs in a list -/

section Runs

variable {α : Type} {a b d : α} {n count most : Nat} {rest : List α}

/-- No run of the same value is longer than said. -/
def RunsAtMost (most : Nat) (values : List α) : Prop :=
  ∀ d n, List.replicate n d <:+: values → n ≤ most

theorem runsAtMost_of_length_le
    {values : List α}
    (h : values.length ≤ most) :
    RunsAtMost most values := by
  intro d n hrun
  have hlength := hrun.length_le
  rw [List.length_replicate] at hlength
  exact hlength.trans h

/-- A run stops where another value follows. -/
theorem replicate_infix_replicate_append
    (hab : a ≠ b) :
    List.replicate n d <:+: List.replicate count a ++ b :: rest ↔
      List.replicate n d <:+: List.replicate count a ∨
      List.replicate n d <:+: b :: rest := by
  rw [List.infix_append_iff, ← or_assoc]
  refine or_iff_left_of_imp ?_
  rintro ⟨l₁, l₂, hsplit, hleft, hright⟩
  have hvalue {c : α} (hc : c ∈ l₁ ++ l₂) : c = d :=
    List.eq_of_mem_replicate (hsplit ▸ hc)
  by_cases hnil : l₁ = [] ∨ l₂ = []
  · rcases hnil with rfl | rfl
    · exact Or.inr (hsplit ▸ hright.isInfix)
    · rw [hsplit, List.append_nil]
      exact Or.inl hleft.isInfix
  · -- The run would have a value on either side of the border.
    rw [not_or] at hnil
    obtain ⟨c, hc⟩ := List.exists_mem_of_ne_nil l₁ hnil.1
    obtain ⟨c', l₂, rfl⟩ := List.exists_cons_of_ne_nil hnil.2
    have ha : a = d :=
      (List.eq_of_mem_replicate (hleft.subset hc)).symm.trans
        (hvalue (by simp [hc]))
    have hb : b = d := by
      rw [← (List.cons_prefix_cons.mp hright).1]
      exact hvalue (by simp)
    exact absurd (ha.trans hb.symm) hab

theorem runsAtMost_replicate :
    RunsAtMost most (List.replicate count a) ↔ count ≤ most := by
  constructor
  · intro h
    exact h a count List.infix_rfl
  · intro h
    exact runsAtMost_of_length_le (List.length_replicate.trans_le h)

theorem runsAtMost_replicate_append
    (hab : a ≠ b) :
    RunsAtMost most (List.replicate count a ++ b :: rest) ↔
      count ≤ most ∧ RunsAtMost most (b :: rest) := by
  rw [← runsAtMost_replicate (a := a)]
  simp only [RunsAtMost, replicate_infix_replicate_append hab,
    or_imp, forall_and]

end Runs

/-! ## Runs of dice that are written alike -/

/-- Dice that are written alike are the same. -/
theorem Die.render_inj
    {d d' : Die}
    (hd : d.WellFormed)
    (hd' : d'.WellFormed) :
    d.render = d'.render ↔ d = d' := by
  refine ⟨fun h => ?_, congrArg render⟩
  have hends : Parse.NumeralEnds [] := fun _ hc => by cases hc
  have hread := Parse.countedDie_of_counted hd le_rfl (by decide) [] hends
  have hread' := Parse.countedDie_of_counted hd' le_rfl (by decide) [] hends
  rw [h, hread'] at hread
  cases hread
  rfl

namespace Summand

/-- The texts of summands that follow `count` copies of `first`, and of these
copies; a run of dice goes on as long as they are written alike. -/
def collapseAlikeAfter (first : Summand) (count : Nat) :
    List Summand → List Text
  | [] => [counted count first.text]
  | next :: rest =>
      if first.die.isSome && next.die.isSome && next.text = first.text then
        collapseAlikeAfter first (count + 1) rest
      else
        counted count first.text :: collapseAlikeAfter next 1 rest

/-- The texts of summands, with a single text for a run of dice that are written
alike. -/
def collapseAlike : List Summand → List Text
  | [] => []
  | first :: rest => collapseAlikeAfter first 1 rest

end Summand

namespace Node

variable {items : List Node}

/-- Two dice are the same exactly if they are written alike. -/
theorem sameDie_iff_alike
    {first next : Node}
    (hfirst : first.WellFormed)
    (hnext : next.WellFormed) :
    (first.die?.isSome && next.die? = first.die?) =
      (first.die?.isSome && next.die?.isSome &&
        next.render = first.render) := by
  cases hd : first.die? with
  | none => rfl
  | some d =>
      obtain ⟨i, rfl⟩ := eq_die_of_mem_die? hd
      cases hd' : next.die? with
      | none => rfl
      | some d' =>
          obtain ⟨j, rfl⟩ := eq_die_of_mem_die? hd'
          obtain ⟨hd⟩ := hfirst
          obtain ⟨hd'⟩ := hnext
          simp [render, Die.render_inj hd' hd]

theorem collapseAfter_eq_collapseAlikeAfter
    {first : Node}
    (hfirst : first.WellFormed)
    (hitems : ∀ item ∈ items, item.WellFormed)
    (count : Nat) :
    Summand.collapseAfter ⟨first.die?, first.render⟩ count (summands items) =
      Summand.collapseAlikeAfter ⟨first.die?, first.render⟩ count
        (summands items) := by
  induction items generalizing first count with
  | nil => rfl
  | cons next rest ih =>
      rw [List.forall_mem_cons] at hitems
      rw [summands, Summand.collapseAfter, Summand.collapseAlikeAfter]
      dsimp only
      rw [sameDie_iff_alike hfirst hitems.1, ih hfirst hitems.2,
        ih hitems.1 hitems.2]

/-- Runs in a pool may be found by comparing what is written. -/
theorem collapse_eq_collapseAlike (hitems : ∀ item ∈ items, item.WellFormed) :
    Summand.collapse (summands items) =
      Summand.collapseAlike (summands items) := by
  cases items with
  | nil => rfl
  | cons first rest =>
      rw [List.forall_mem_cons] at hitems
      exact collapseAfter_eq_collapseAlikeAfter hitems.1 hitems.2 1

end Node

/-! ## The terms of dice -/

namespace Addend

/-- A die as a summand. -/
def ofDie (d : Die) : Addend :=
  ⟨some d, [Term.dice 1 d]⟩

end Addend

namespace Node

variable {id : NodeId} {items : List Node} {ds : List Die}

theorem allDice_replicate_die (count : Nat) (d : Die) :
    allDice (List.replicate count (die 0 d)) = List.replicate count d := by
  induction count with
  | zero => rfl
  | succ count ih =>
      rw [List.replicate_succ, allDice, ih, dice, List.singleton_append,
        List.replicate_succ]

theorem dice_termDice (count : Nat) (d : Die) :
    (Term.dice count d).node.dice = List.replicate count d := by
  rw [Term.dice]
  dsimp only
  split
  · rename_i hone
    rw [hone, dice, List.replicate_one]
  · rw [dice, allDice_replicate_die]

theorem dice_sum (ts : List Term) :
    (Term.sum ts).dice = allDice (ts.map Term.node) := by
  match ts with
  | [] => rfl
  | [t] => rw [Term.sum, List.map_singleton, allDice, allDice, List.append_nil]
  | s :: t :: ts => rw [Term.sum_of_length_ne_one (by simp), dice]

theorem areLegible_dice_cons (count : Nat) (d : Die) (ts : List Term) :
    Term.areLegible (Term.dice count d :: ts) = true ↔
      count ≤ mostCopies ∧ Term.areLegible ts = true := by
  have hclosed : (Term.dice count d).node.isOpen = false := by
    rw [Term.dice]
    dsimp only
    split <;> rfl
  have hlegible : (Term.dice count d).legible = true ↔ count ≤ mostCopies := by
    rw [Term.dice]
    exact decide_eq_true_iff
  cases ts with
  | nil => exact hlegible.trans (and_iff_left rfl).symm
  | cons t ts =>
      rw [Term.areLegible, hclosed, Bool.false_and, Bool.not_false,
        Bool.and_true, Bool.and_eq_true, hlegible]

/-- A run goes on with the same die, and ends in front of another one. -/
theorem collapseAfter_ofDie_cons (first next : Die)
    (count : Nat) (rest : List Die) :
    Addend.collapseAfter (.ofDie first) count ((next :: rest).map .ofDie) =
      if next = first then
        Addend.collapseAfter (.ofDie first) (count + 1) (rest.map .ofDie)
      else
        Term.dice count first :: Addend.collapseAfter (.ofDie next) 1
          (rest.map .ofDie) := by
  rw [List.map_cons, Addend.collapseAfter]
  simp only [Addend.ofDie, Option.isSome_some, Bool.true_and, decide_eq_true_eq,
    Option.some.injEq, Addend.counted, List.singleton_append]

/-- The open run and the dice behind it are read in order. -/
theorem allDice_collapseAfter (first : Die) (count : Nat) (rest : List Die) :
    allDice ((Addend.collapseAfter (.ofDie first) count (rest.map .ofDie)).map
      Term.node) = List.replicate count first ++ rest := by
  -- the next die joins the open run or opens another one
  induction rest generalizing first count with
  | nil =>
      have hterms : Addend.collapseAfter (.ofDie first) count [] =
          [Term.dice count first] := rfl
      rw [List.map_nil, hterms, List.map_singleton, allDice, allDice,
        dice_termDice]
  | cons next rest ih =>
      rw [collapseAfter_ofDie_cons]
      split
      · rename_i hsame
        rw [ih, hsame, List.replicate_succ', List.append_assoc,
          List.singleton_append]
      · rw [List.map_cons, allDice, dice_termDice, ih, List.replicate_one,
          List.singleton_append]

/-- All counts can be read if no run is too long, the open one included. -/
theorem areLegible_collapseAfter (first : Die) (count : Nat) (rest : List Die) :
    Term.areLegible
        (Addend.collapseAfter (.ofDie first) count (rest.map .ofDie)) = true ↔
      RunsAtMost mostCopies (List.replicate count first ++ rest) := by
  induction rest generalizing first count with
  | nil =>
      have hterms : Addend.collapseAfter (.ofDie first) count [] =
          [Term.dice count first] := rfl
      rw [List.map_nil, hterms, areLegible_dice_cons, List.append_nil,
        runsAtMost_replicate]
      exact and_iff_left rfl
  | cons next rest ih =>
      rw [collapseAfter_ofDie_cons]
      split
      · rename_i hsame
        rw [ih, hsame, List.replicate_succ', List.append_assoc,
          List.singleton_append]
      · rename_i hother
        rw [areLegible_dice_cons, ih,
          runsAtMost_replicate_append (Ne.symm hother),
          List.replicate_one, List.singleton_append]

theorem addends_eq_ofDie (hdice : items.map die? = ds.map some) :
    addends items = ds.map Addend.ofDie := by
  induction items generalizing ds with
  | nil =>
      rw [List.map_nil, eq_comm, List.map_eq_nil_iff] at hdice
      rw [hdice]
      rfl
  | cons item rest ih =>
      rw [List.map_cons, eq_comm, List.map_eq_cons_iff] at hdice
      obtain ⟨d, ds, rfl, hd, hrest⟩ := hdice
      obtain ⟨i, rfl⟩ := eq_die_of_mem_die? hd.symm
      rw [addends, ih hrest.symm, List.map_cons]
      rfl

/-! ## Pools of dice -/

/-- What a pool of dice is read as has the same dice. -/
theorem dice_reread_of_dice
    (hdice : items.map die? = ds.map some) :
    (pool id items).reread.dice = ds := by
  rw [reread, dice_sum, terms, addends_eq_ofDie hdice]
  cases ds with
  | nil => rfl
  | cons first rest =>
      rw [List.map_cons, Addend.collapse, allDice_collapseAfter,
        List.replicate_one, List.singleton_append]

theorem isLegible_iff_of_dice
    (hdice : items.map die? = ds.map some) :
    (pool id items).isLegible = true ↔ RunsAtMost mostCopies ds := by
  rw [isLegible, terms, addends_eq_ofDie hdice]
  cases ds with
  | nil => simp [Addend.collapse, Term.areLegible, RunsAtMost]
  | cons first rest =>
      rw [List.map_cons, Addend.collapse, areLegible_collapseAfter,
        List.replicate_one, List.singleton_append]

theorem forall_eq_die_of_dice
    (hdice : items.map die? = ds.map some) :
    ∀ item ∈ items, ∃ i d, item = die i d := by
  intro item hitem
  have hmem : item.die? ∈ ds.map some := hdice ▸ List.mem_map_of_mem hitem
  obtain ⟨d, -, hd⟩ := List.mem_map.mp hmem
  obtain ⟨i, rfl⟩ := eq_die_of_mem_die? hd.symm
  exact ⟨i, d, rfl⟩

/-- The terms of a pool of dice are groups of these dice. -/
theorem forall_terms_of_dice
    (hwellFormed : (pool id items).WellFormed)
    (hdice : items.map die? = ds.map some) :
    ∀ t ∈ (pool id items).terms, ∃ count d, 1 ≤ count ∧ d.WellFormed ∧
      t = Term.dice count d := by
  have hitems := (wellFormed_iff_members _).mp hwellFormed
  refine forall_mem_terms_pool ?_ ?_
  · intro item hitem d hd count hcount
    obtain ⟨i, rfl⟩ := eq_die_of_mem_die? hd
    obtain ⟨hd⟩ := hitems _ hitem
    exact ⟨count, d, hcount, hd, rfl⟩
  · intro item hitem t ht
    obtain ⟨i, d, rfl⟩ := forall_eq_die_of_dice hdice item hitem
    obtain ⟨hd⟩ := hitems _ hitem
    exact ⟨1, d, le_rfl, hd, List.mem_singleton.mp ht⟩

/-- A pool of dice is read exactly if its counts can be read. -/
theorem accepts_parse_render_of_dice
    (hwellFormed : (pool id items).WellFormed)
    (hdice : items.map die? = ds.map some)
    (hne : items ≠ [])
    (tracer : Tracer) :
    Accepts (parse tracer (pool id items).render)
      ((pool id items).isLegible = true)
      (fun n => n.bare = (pool id items).reread) := by
  have hfilled : (pool id items).Filled := by
    refine .pool (fun item hitem => ?_) hne
    obtain ⟨i, d, rfl⟩ := forall_eq_die_of_dice hdice item hitem
    exact .die i d
  have hwritten := hfilled.writtenAsTerms
  have hterms := forall_terms_of_dice hwellFormed hdice
  have hsum :
      Parse.ReadsAsSum tracer (pool id items).render (pool id items) := by
    refine Parse.readsAsSum_of_terms hwritten fun t ht => ?_
    obtain ⟨count, d, hcount, hd, rfl⟩ := hterms t ht
    exact Parse.readsInSum_dice hd hcount
  have hnesting : (pool id items).render.nesting ≤ deepestNesting := by
    rw [hwritten.render_eq, Text.nesting_intercalate_le]
    all_goals
      refine List.forall_mem_map.mpr fun t ht => ?_
      obtain ⟨count, d, -, -, rfl⟩ := hterms t ht
    · rw [Term.nesting_dice]
      exact Nat.zero_le _
    · exact Term.spelled_dice count d
  have hreread : (pool id items).reread.WellFormed := by
    refine (Parse.wellFormed_sum hwritten.terms_ne_nil).mpr fun t ht => ?_
    obtain ⟨count, d, -, hd, rfl⟩ := hterms t ht
    exact Term.wellFormed_dice hd
  refine (accepts_parse_of_readsAsSum hwritten hsum).congr ?_ fun _ _ h => h
  exact and_iff_left ⟨hnesting, hreread⟩

/-- The notation of a pool of dice, with a count in front of every run of the
same die, is read as a tree with exactly these dice in the same order, unless a
run has more than 1000 of them. -/
theorem collapsing_keeps_dice
    (h : Constructed (pool id items))
    (hne : items ≠ [])
    (hdice : items.map die? = ds.map some)
    (tracer : Tracer) (m : Memory) :
    (∃ again, (parse tracer (pool id items).render).outcome m = .ok again ∧
      again.dice = ds) ↔ RunsAtMost 1000 ds := by
  have haccepts := accepts_parse_render_of_dice h.wellFormed hdice hne tracer m
  rw [isLegible_iff_of_dice hdice] at haccepts
  cases hout : (parse tracer (pool id items).render).outcome m with
  | error e =>
      rw [hout] at haccepts
      refine iff_of_false ?_ haccepts
      rintro ⟨again, ⟨⟩, -⟩
  | ok again =>
      rw [hout] at haccepts
      refine iff_of_true ⟨again, rfl, ?_⟩ haccepts.1
      rw [← dice_bare, haccepts.2, dice_reread_of_dice hdice]

/-- Two runs of the same die, with one die of every other kind between them. -/
theorem interrupted_run_collapsed :
    ∃ items, Constructed (pool 6 items) ∧
      (pool 6 items).render = "2D6+D[-1,2]+DF+2D6".toList ∧
      ∃ again,
        (parse Tracer.silent (pool 6 items).render).outcome Memory.empty =
          .ok again ∧
        again.dice = [.sided 6, .sided 6, .custom [-1, 2], .fudge, .sided 6,
          .sided 6] := by
  have hreturns (id : NodeId) (d : Die) : (Build.die d).Returns (die id d) :=
    ⟨⟨id, Traces.none, #[]⟩, rfl⟩
  have hsides : Limits.Holds 6 := by decide
  have hsided (id : NodeId) : Constructed (die id (.sided 6)) :=
    .sided hsides rfl (hreturns id _)
  have hfaces : ∀ face ∈ [(-1 : Int), 2], Limits.Holds face := by decide
  have hcustom : Constructed (die 2 (.custom [-1, 2])) :=
    .custom hfaces rfl (hreturns 2 _)
  let items :=
    [die 0 (.sided 6), die 1 (.sided 6), die 2 (.custom [-1, 2]), die 3 .fudge,
      die 4 (.sided 6), die 5 (.sided 6)]
  have hpool : (Build.pool (items.map some)).Returns (pool 6 items) :=
    ⟨⟨6, Traces.none, #[]⟩, rfl⟩
  have hitems : ∀ item ∈ items, Constructed item := by
    simp only [items, List.forall_mem_cons]
    exact ⟨hsided 0, hsided 1, hcustom, .fudge (hreturns 3 _), hsided 4,
      hsided 5, List.forall_mem_nil _⟩
  have hnode : Constructed (pool 6 items) := .pool hitems hpool
  refine ⟨items, hnode, by decide, ?_⟩
  refine (collapsing_keeps_dice hnode (List.cons_ne_nil _ _) rfl
    Tracer.silent Memory.empty).mpr ?_
  exact runsAtMost_of_length_le (by decide)

end Node
end DiceNotation
