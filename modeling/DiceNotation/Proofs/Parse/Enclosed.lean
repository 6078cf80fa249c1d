import DiceNotation.Proofs.Node.Bare
import DiceNotation.Proofs.Parse.Extension

/-!
# Parentheses around a text

A text that is read may be put into parentheses.  It is then read as a node of
the same structure, unless its parentheses nest too deep.  Only the nesting
counts: how many groups in parentheses were read before makes no difference.

To see this, the reading of the text is replayed where other parentheses are
open and a closing one follows.  Every step of it comes out as before, up to the
first opening parenthesis that nests too deep.
-/

namespace DiceNotation
namespace Parse

open Building Text

/-! ## Replaying -/

variable {α β : Type}

/-- A result as described under a condition, and without it the refusal of
parentheses that nest too deep. -/
def FitsOutcome (condition : Prop) (result : α → Prop) : Except Error α → Prop
  | .ok a => condition ∧ result a
  | .error e => ¬condition ∧ e = .badSyntax .nestedTooDeep

/-- From every memory, there is a result as described exactly under a condition,
and without it parentheses are refused because they nest too deep. -/
def Fits (b : Building α) (condition : Prop) (result : α → Prop) : Prop :=
  ∀ m, FitsOutcome condition result (b.outcome m)

theorem Fits.congr
    {b : Building α} {C C' : Prop} {R : α → Prop}
    (h : Fits b C R)
    (hC : C ↔ C') :
    Fits b C' R := by
  rwa [← propext hC]

theorem Fits.of_returns
    {b : Building α} {C : Prop} {R : α → Prop} {a : α}
    (h : Fits b C R)
    (ha : b.Returns a) :
    C ∧ R a := by
  obtain ⟨m, hm⟩ := ha
  have hfits := h m
  rwa [hm] at hfits

theorem Fits.exists_returns
    {b : Building α} {C : Prop} {R : α → Prop}
    (h : Fits b C R)
    (hC : C) :
    ∃ a, b.Returns a ∧ R a := by
  have hfits := h Memory.empty
  cases hout : b.outcome Memory.empty with
  | ok a =>
      rw [hout] at hfits
      exact ⟨a, ⟨Memory.empty, hout⟩, hfits.2⟩
  | error e =>
      rw [hout] at hfits
      exact absurd hC hfits.1

theorem fits_of_accepts
    {b : Building α} {R : α → Prop}
    (h : Accepts b True R) :
    Fits b True R := by
  intro m
  have hm := h m
  cases hout : b.outcome m with
  | ok a =>
      rw [hout] at hm
      exact hm
  | error e =>
      rw [hout] at hm
      exact (hm trivial).elim

theorem Fits.bind
    {b : Building α} {f : α → Building β} {C C' : Prop}
    {R : α → Prop} {R' : β → Prop}
    (hb : Fits b C R)
    (hf : ∀ a, R a → Fits (f a) C' R') :
    Fits (b >>= f) (C ∧ C') R' := by
  refine outcome_bind_of hb ?_ ?_
  · rintro a ⟨hC, ha⟩ m
    have hm := hf a ha m
    cases hout : (f a).outcome m with
    | ok c =>
        rw [hout] at hm
        exact ⟨⟨hC, hm.1⟩, hm.2⟩
    | error e =>
        rw [hout] at hm
        exact ⟨fun h => hm.1 h.2, hm.2⟩
  · rintro e ⟨hC, he⟩
    exact ⟨fun h => hC h.1, he⟩

theorem Fits.andThen
    {b : Building α} {f : α → Building β} {C : Prop}
    {R : α → Prop} {R' : β → Prop}
    (hb : Fits b C R)
    (hf : ∀ a, R a → Fits (f a) True R') :
    Fits (b >>= f) C R' :=
  (hb.bind hf).congr (and_true C).to_iff

/-- Every word that a reader takes off is spelled.  If a closing parenthesis or
nothing follows the text, another reader takes the word off exactly if it nests
at most as deep as said, with a result of the same shape. -/
def Replays {γ : Type} (shape : α → γ) (depth : Nat)
    (reader again : Reader α) : Prop :=
  ∀ ⦃s rest : Text⦄ ⦃a : α⦄, (reader s).Returns (a, rest) →
    ∃ w, s = w ++ rest ∧ Spelled w ∧ ∀ {tail : Text}, AfterExpression tail →
      Fits (again (s ++ tail)) (w.nesting ≤ depth) fun p =>
        shape p.1 = shape a ∧ p.2 = rest ++ tail

section Steps

variable {γ δ : Type} {shape : α → γ} {shape' : β → δ} {depth : Nat}

theorem replays_pure
    {a b : α}
    (h : shape b = shape a) :
    Replays shape depth (fun s => pure (a, s)) fun s => pure (b, s) := by
  intro s rest c hc
  cases Returns.of_pure hc
  refine ⟨[], rfl, .nil, fun _ => ?_⟩
  exact fits_of_accepts (accepts_pure trivial ⟨h, rfl⟩) |>.congr
    (iff_of_true trivial (Nat.zero_le _))

theorem replays_scanned
    {scan again : Scan α}
    (h : Extends scan again) :
    Replays id depth (fun s => scanned (scan s))
      fun s => scanned (again s) := by
  intro s rest a ha
  obtain ⟨⟨w, hw, hplain⟩, hagain⟩ := h (returns_scanned ha)
  refine ⟨w, hw, spelled_of_forall hplain, fun htail => ?_⟩
  dsimp only
  rw [hagain htail, nesting_of_forall hplain, scanned_ok]
  exact fits_of_accepts (accepts_pure trivial ⟨rfl, rfl⟩) |>.congr
    (iff_of_true trivial (Nat.zero_le _))

theorem Replays.bind
    {reader again : Reader α} {f g : α × Text → Building (β × Text)}
    (h : Replays shape depth reader again)
    (hf : ∀ a b, shape b = shape a →
      Replays shape' depth (fun rest => f (a, rest)) fun rest => g (b, rest)) :
    Replays shape' depth (fun s => reader s >>= f) fun s => again s >>= g := by
  intro s rest c hc
  obtain ⟨⟨a, more⟩, hfirst, hsecond⟩ := hc.bind
  obtain ⟨w, rfl, hw, hagain⟩ := h hfirst
  obtain ⟨v, rfl, hv, -⟩ := hf a a rfl hsecond
  refine ⟨w ++ v, (List.append_assoc _ _ _).symm, hw.append hv,
    fun {tail} htail => ?_⟩
  rw [hw.nesting_append, max_le_iff]
  refine (hagain htail).bind ?_
  rintro ⟨b, more⟩ ⟨hb, rfl⟩
  obtain ⟨v', hv', -, hsecond'⟩ := hf a b hb hsecond
  cases List.append_cancel_right hv'
  exact hsecond' htail

/-- After a word, reading goes on with what the scan returns. -/
theorem replays_scanned_bind
    {scan again : Scan α} {f g : α × Text → Building (β × Text)}
    (h : Extends scan again)
    (hf : ∀ a,
      Replays shape' depth (fun rest => f (a, rest)) fun rest => g (a, rest)) :
    Replays shape' depth (fun s => scanned (scan s) >>= f)
      fun s => scanned (again s) >>= g := by
  refine (replays_scanned h).bind fun a b hab => ?_
  have heq : b = a := hab
  rw [heq]
  exact hf a

/-- A node that is built between two words takes no text. -/
theorem Replays.build
    {b b' : Building α} {f g : α → Reader β}
    (hb : ∀ a, b.Returns a → Accepts b' True fun a' => shape a' = shape a)
    (hf : ∀ a a', shape a' = shape a → Replays shape' depth (f a) (g a')) :
    Replays shape' depth (fun s => b >>= fun a => f a s)
      fun s => b' >>= fun a => g a s := by
  intro s rest c hc
  obtain ⟨a, hfirst, hsecond⟩ := hc.bind
  obtain ⟨w, rfl, hw, -⟩ := hf a a rfl hsecond
  refine ⟨w, rfl, hw, fun {tail} htail => ?_⟩
  refine ((fits_of_accepts (hb a hfirst)).bind fun a' ha' => ?_).congr
    (true_and _).to_iff
  obtain ⟨w', hw', -, hsecond'⟩ := hf a a' ha' hsecond
  cases List.append_cancel_right hw'
  exact hsecond' htail

end Steps
/-! ## Building from nodes of the same structure -/

section Structure

variable {tracer : Tracer} {inner inner' node : Node}

theorem accepts_die_again
    {d : Die}
    (h : (Build.die d).Returns node) :
    Accepts (Build.die d) True fun node' => node'.bare = node.bare := by
  obtain ⟨-, id, rfl⟩ := (Build.accepts_die d).of_returns h
  refine (Build.accepts_die d).congr Iff.rfl ?_
  rintro - _ ⟨id', rfl⟩
  rfl

theorem accepts_repeated_again
    {n : Int}
    (hinner : inner'.bare = inner.bare)
    (h : (Build.repeated inner n).Returns node) :
    Accepts (Build.repeated inner' n) True
      fun node' => node'.bare = node.bare := by
  obtain ⟨hn, id, ids, hids, rfl⟩ :=
    (Build.accepts_repeated inner n).of_returns h
  refine (Build.accepts_repeated inner' n).congr (iff_true_intro hn) ?_
  rintro - _ ⟨id', ids', hids', rfl⟩
  simp only [Node.bare_pool, List.map_map, Function.comp_def, Node.bare_withId,
    hinner, List.map_const', hids, hids']

theorem accepts_arithmetic_again
    {op : Operator} {operand : Int}
    (hinner : inner'.bare = inner.bare)
    (h : (Build.arithmetic (some inner) op operand tracer).Returns node) :
    Accepts (Build.arithmetic (some inner') op operand tracer) True fun node' =>
      node'.bare = node.bare := by
  obtain ⟨hoperand, id, rfl⟩ :=
    (Build.accepts_arithmetic inner op operand tracer).of_returns h
  refine (Build.accepts_arithmetic inner' op operand tracer).congr
    (iff_true_intro hoperand) ?_
  rintro - _ ⟨id', rfl⟩
  rw [Node.bare, Node.bare, hinner]

theorem accepts_dropKeep_again
    {selection : Selection} {threshold : Int}
    (hinner : inner'.bare = inner.bare)
    (h :
      (Build.dropKeep (some inner) selection threshold tracer).Returns node) :
    Accepts (Build.dropKeep (some inner') selection threshold tracer) True
      fun node' => node'.bare = node.bare := by
  have hmembers :
      inner'.members.map Node.bare = inner.members.map Node.bare := by
    rw [← Node.members_bare, hinner, Node.members_bare]
  have hlength : inner'.members.length = inner.members.length := by
    simpa only [List.length_map] using congrArg List.length hmembers
  obtain ⟨⟨hne, hthreshold⟩, id, rfl⟩ :=
    (Build.accepts_dropKeep inner selection threshold tracer).of_returns h
  have hne' : inner'.members ≠ [] := by
    rw [← List.length_pos_iff] at hne ⊢
    rwa [hlength]
  rw [← hlength] at hthreshold
  refine (Build.accepts_dropKeep inner' selection threshold tracer).congr
    (iff_true_intro ⟨hne', hthreshold⟩) ?_
  rintro - _ ⟨id', rfl⟩
  rw [Node.bare, Node.bare, hinner]

theorem accepts_explode_again
    {comparator : Comparator} {threshold : Option Int}
    (hinner : inner'.bare = inner.bare)
    (h :
      (Build.explode (some inner) comparator threshold tracer).Returns node) :
    Accepts (Build.explode (some inner') comparator threshold tracer) True
      fun node' => node'.bare = node.bare := by
  obtain ⟨hexplodable, id, rfl⟩ :=
    (Build.accepts_explode inner comparator threshold tracer).of_returns h
  have hexplodable' : Node.Explodable comparator threshold inner' := by
    rwa [← Node.explodable_bare, hinner, Node.explodable_bare]
  refine (Build.accepts_explode inner' comparator threshold tracer).congr
    (iff_true_intro hexplodable') ?_
  rintro - _ ⟨id', rfl⟩
  rw [Node.bare, Node.bare, hinner]

end Structure

/-! ## Readers -/

section Readers

variable {tracer : Tracer} {whole whole' : Text} {depth : Nat}

theorem replays_dice : Replays Node.bare depth (dice whole) (dice whole') := by
  unfold dice
  refine replays_scanned_bind extends_countedDie ?_
  rintro ⟨n, d⟩
  dsimp only
  refine Replays.build (fun _ => accepts_die_again) fun die die' hdie => ?_
  by_cases hn : n = 1
  · simp only [if_pos hn]
    exact replays_pure hdie
  · simp only [if_neg hn]
    exact Replays.build (fun _ => accepts_repeated_again hdie)
      fun _ _ => replays_pure

theorem replays_selected
    {inner inner' : Node}
    (hinner : inner'.bare = inner.bare) :
    Replays Node.bare depth (selected tracer inner)
      (selected tracer inner') := by
  unfold selected
  refine replays_scanned_bind extends_selection fun selection? => ?_
  cases selection? with
  | none => exact replays_pure hinner
  | some selection =>
      refine replays_scanned_bind (extends_integer false) fun threshold => ?_
      exact Replays.build (fun _ => accepts_dropKeep_again hinner)
        fun _ _ => replays_pure

/-- Behind its mark, an explosion is a comparator and a threshold. -/
theorem exploded_mark (tracer : Tracer) (node : Node) (more : Text) :
    exploded tracer node ('!' :: more) =
      (do
        let (comparator, rest) ← scanned (.ok (comparator more))
        let (threshold, rest) ← scanned (integer comparator.isSome rest)
        return (← Build.explode (some node) (comparator.getD .equal)
          threshold tracer, rest)) := by
  rw [exploded, scanned_ok, pure_bind]

theorem replays_exploded
    {inner inner' : Node}
    (hinner : inner'.bare = inner.bare) :
    Replays Node.bare depth (exploded tracer inner)
      (exploded tracer inner') := by
  have hmarked :
      Replays Node.bare depth (fun more => exploded tracer inner ('!' :: more))
        fun more => exploded tracer inner' ('!' :: more) := by
    simp only [exploded_mark]
    refine replays_scanned_bind extends_comparator fun found => ?_
    dsimp only
    refine replays_scanned_bind (extends_integer _) fun threshold => ?_
    exact Replays.build (fun _ => accepts_explode_again hinner)
      fun _ _ => replays_pure
  intro s rest node h
  by_cases hmark : ∃ more, s = '!' :: more
  · obtain ⟨more, rfl⟩ := hmark
    obtain ⟨w, rfl, hw, hagain⟩ := hmarked h
    have hplain : IsPlain '!' := by decide
    refine ⟨'!' :: w, rfl, .plain hplain hw, fun htail => ?_⟩
    rw [nesting, deepestFrom_plain hplain]
    exact hagain htail
  · have hends : ∀ {tail : Text},
        AfterExpression tail → ∀ more, s ++ tail ≠ '!' :: more := by
      intro tail htail more heq
      obtain ⟨s', rfl, -⟩ := htail.exists_eq_cons heq (by decide)
      exact hmark ⟨s', rfl⟩
    have hnone := hends .nil
    rw [List.append_nil] at hnone
    rw [exploded_none hnone] at h
    have hreplays : Replays Node.bare depth (fun s => pure (inner, s))
        fun s => pure (inner', s) :=
      replays_pure hinner
    obtain ⟨w, hw, hspelled, hagain⟩ := hreplays h
    refine ⟨w, hw, hspelled, fun htail => ?_⟩
    rw [exploded_none (hends htail)]
    exact hagain htail

/-- Where a suffix is allowed, the text is not needed once it was read. -/
theorem suffixed_succ
    (tracer : Tracer) (whole : Text) (allowed : Nat) (node : Node) (s : Text) :
    suffixed tracer whole (allowed + 1) node s =
      (do
        match ← scanned (suffix whole s) with
        | (none, rest) => return (node, rest)
        | (some (op, n), rest) => do
            let node ← Build.arithmetic (some node) op n tracer
            suffixed tracer whole allowed node rest) :=
  suffixed.eq_def tracer whole (allowed + 1) node s

theorem replays_suffixed
    {inner inner' : Node}
    (allowed : Nat)
    (hinner : inner'.bare = inner.bare) :
    Replays Node.bare depth (suffixed tracer whole allowed inner)
      (suffixed tracer whole' allowed inner') := by
  induction allowed generalizing inner inner' with
  | zero =>
      intro s rest node h
      rw [suffixed] at h
      obtain ⟨⟨found, more⟩, hsuffix, h⟩ := h.bind
      have hextends : Extends (suffix whole) (suffix whole') := extends_suffix
      obtain ⟨⟨w, rfl, hplain⟩, hagain⟩ := hextends (returns_scanned hsuffix)
      cases found with
      | none =>
          cases Returns.of_pure h
          refine ⟨w, rfl, spelled_of_forall hplain, fun htail => ?_⟩
          rw [suffixed, hagain htail, scanned_ok, pure_bind,
            nesting_of_forall hplain]
          exact (fits_of_accepts (accepts_pure trivial ⟨hinner, rfl⟩)).congr
            (iff_of_true trivial (Nat.zero_le _))
      | some found => exact absurd h not_returns_throw
  | succ allowed ih =>
      change Replays _ _ (fun s => suffixed _ _ _ _ s)
        fun s => suffixed _ _ _ _ s
      simp only [suffixed_succ]
      refine replays_scanned_bind extends_suffix fun found => ?_
      cases found with
      | none => exact replays_pure hinner
      | some found =>
          exact Replays.build (fun _ => accepts_arithmetic_again hinner)
            fun _ _ => ih

theorem replays_termAt
    {d : Nat}
    (h : Replays Node.bare depth (groupAt tracer whole d)
      (groupAt tracer whole' depth)) :
    Replays Node.bare depth (termAt tracer whole d)
      (termAt tracer whole' depth) := by
  change Replays _ _ (fun s => termAt _ _ _ s) fun s => termAt _ _ _ s
  simp only [termAt, term]
  refine h.bind fun _ _ hgroup => ?_
  refine (replays_selected hgroup).bind fun _ _ hselected => ?_
  refine (replays_exploded hselected).bind fun _ _ hexploded => ?_
  exact replays_suffixed mostSuffixes hexploded

/-- There are fewer terms than characters, so neither limit is reached. -/
theorem replays_terms
    {reader again : Reader Node} {limit : Nat}
    {s rest : Text} {nodes : List Node}
    (hreader : Replays Node.bare depth reader again)
    (hlimit : s.length < limit)
    (h : (terms reader limit s).Returns (nodes, rest)) :
    ∃ w, s = w ++ rest ∧ Spelled w ∧ ∀ {tail : Text}, AfterExpression tail →
      ∀ {limit' : Nat}, (s ++ tail).length < limit' →
        Fits (terms again limit' (s ++ tail)) (w.nesting ≤ depth) fun p =>
          p.1.map Node.bare = nodes.map Node.bare ∧ p.2 = rest ++ tail := by
  induction limit generalizing s nodes with
  | zero => cases hlimit
  | succ limit ih =>
      obtain ⟨⟨first, more⟩, hfirst, hothers⟩ := h.bind
      obtain ⟨w, rfl, hw, hagain⟩ := hreader hfirst
      by_cases hnext : ∃ more', more = '+' :: more' ∧ startsGroup more' = true
      · obtain ⟨more', rfl, hgroup⟩ := hnext
        simp only [hgroup, if_true] at hothers
        obtain ⟨⟨others, rest'⟩, hrest, hnodes⟩ := hothers.bind
        cases Returns.of_pure hnodes
        have hshorter : more'.length < limit := by
          rw [List.length_append, List.length_cons] at hlimit
          omega
        obtain ⟨v, rfl, hv, hothers'⟩ := ih hshorter hrest
        have hplus : IsPlain '+' := by decide
        refine ⟨w ++ '+' :: v, by simp, hw.append (.plain hplus hv), ?_⟩
        intro tail htail limit' hlimit'
        cases limit' with
        | zero => cases hlimit'
        | succ limit' =>
            have hshorter' : (v ++ rest' ++ tail).length < limit' := by
              simp only [List.length_append, List.length_cons] at hlimit' ⊢
              omega
            rw [hw.nesting_append, max_le_iff, nesting.eq_def ('+' :: v),
              deepestFrom_plain hplus]
            refine (hagain htail).bind ?_
            rintro ⟨node, r⟩ ⟨hnode, rfl⟩
            change Fits
              (if startsGroup (v ++ rest' ++ tail) = true then _ else _) _ _
            rw [startsGroup_append_tail _ htail, if_pos hgroup]
            refine (hothers' htail hshorter').andThen ?_
            rintro ⟨nodes, r⟩ ⟨hnodes, rfl⟩
            refine fits_of_accepts (accepts_pure trivial ⟨?_, rfl⟩)
            rw [List.map_cons, List.map_cons, hnode, hnodes]
      · have hends {tail : Text} (htail : AfterExpression tail) (more' : Text) :
            more ++ tail = '+' :: more' → startsGroup more' = false := by
          intro heq
          obtain ⟨more, rfl, rfl⟩ := htail.exists_eq_cons heq (by decide)
          refine (startsGroup_append_tail more htail).trans ?_
          rw [← Bool.not_eq_true]
          exact fun hgroup => hnext ⟨more, rfl, hgroup⟩
        have hlast :
            (pure ([first], more) : Building _).Returns (nodes, rest) := by
          have hnone := hends .nil
          rw [List.append_nil] at hnone
          dsimp only at hothers
          split at hothers
          · rwa [hnone _ rfl, if_neg Bool.false_ne_true] at hothers
          · exact hothers
        cases Returns.of_pure hlast
        refine ⟨w, rfl, hw, fun {tail} htail limit' hlimit' => ?_⟩
        cases limit' with
        | zero => cases hlimit'
        | succ limit' =>
            refine (hagain htail).andThen ?_
            rintro ⟨node, r⟩ ⟨hnode, rfl⟩
            have hnodes : [node].map Node.bare = [first].map Node.bare := by
              rw [List.map_singleton, List.map_singleton, hnode]
            dsimp only
            split
            · rename_i heq
              rw [hends htail _ heq, if_neg Bool.false_ne_true]
              exact fits_of_accepts (accepts_pure trivial ⟨hnodes, rfl⟩)
            · exact fits_of_accepts (accepts_pure trivial ⟨hnodes, rfl⟩)

theorem replays_sum
    {reader again : Reader Node}
    (hreader : Replays Node.bare depth reader again) :
    Replays Node.bare depth (sum reader) (sum again) := by
  intro s rest node h
  obtain ⟨⟨nodes, more⟩, hnodes, hbuilt⟩ := h.bind
  obtain ⟨-, hnode, rfl⟩ :=
    (accepts_pooled (E := fun _ => False) _ _).of_returns hbuilt
  obtain ⟨w, rfl, hw, hagain⟩ :=
    replays_terms hreader (Nat.lt_succ_self _) hnodes
  refine ⟨w, rfl, hw, fun htail => ?_⟩
  refine (hagain htail (Nat.lt_succ_self _)).andThen ?_
  rintro ⟨nodes', r⟩ ⟨hnodes', rfl⟩
  refine fits_of_accepts ((accepts_pooled nodes' _).congr Iff.rfl ?_)
  rintro - ⟨node', r⟩ ⟨hnode', rfl⟩
  have hlength : nodes'.length = nodes.length := by
    simpa only [List.length_map] using congrArg List.length hnodes'
  refine ⟨?_, rfl⟩
  rcases hnode with rfl | ⟨hmany, id, rfl⟩
  · rcases hnode' with rfl | ⟨hmany', -⟩
    · exact List.singleton_inj.mp hnodes'
    · exact absurd hlength hmany'
  · rcases hnode' with rfl | ⟨-, id', rfl⟩
    · exact absurd hlength.symm hmany
    · rw [Node.bare_pool, Node.bare_pool, hnodes']

/-- What is between the parentheses of a group is replayed where one more of
them is open. -/
theorem replays_groupAt
    {d : Nat}
    (h : ∀ inner, d = inner + 1 → ∀ depth, Replays Node.bare depth
      (expression tracer whole inner) (expression tracer whole' depth))
    (depth : Nat) :
    Replays Node.bare depth (groupAt tracer whole d)
      (groupAt tracer whole' depth) := by
  intro s rest node hnode
  by_cases hparen : ∃ more, s = '(' :: more
  · obtain ⟨more, rfl⟩ := hparen
    cases d with
    | zero => exact absurd hnode not_returns_throw
    | succ inner =>
        rw [groupAt, group] at hnode
        obtain ⟨⟨node', more'⟩, hexpression, hrest⟩ := hnode.bind
        obtain ⟨⟨_, end'⟩, hexpect, hpure⟩ := hrest.bind
        cases Returns.of_pure hpure
        cases eq_cons_of_expect (returns_scanned hexpect)
        have hreplays := h inner rfl
        obtain ⟨w, rfl, hw, -⟩ := hreplays 0 hexpression
        refine ⟨'(' :: (w ++ [')']),
          by simp, hw.parenthesize, fun {tail} htail => ?_⟩
        have hnesting : nesting ('(' :: (w ++ [')'])) = w.nesting + 1 :=
          hw.nesting_parenthesize
        rw [hnesting]
        cases depth with
        | zero =>
            -- The parenthesis of this group is the first that nests too deep.
            exact fun m => ⟨Nat.not_succ_le_zero _, rfl⟩
        | succ depth =>
            obtain ⟨w', hw', -, hagain⟩ := hreplays depth hexpression
            cases List.append_cancel_right hw'
            rw [List.cons_append, groupAt, group, Nat.succ_le_succ_iff]
            refine (hagain htail).andThen ?_
            rintro ⟨node, r⟩ ⟨hnode, rfl⟩
            dsimp only
            rw [List.cons_append, expect_self, scanned_ok, pure_bind]
            exact fits_of_accepts (accepts_pure trivial ⟨hnode, rfl⟩)
  · have hdice {tail : Text} (htail : AfterExpression tail) (more : Text) :
        s ++ tail ≠ '(' :: more := by
      intro heq
      obtain ⟨s', rfl, -⟩ := htail.exists_eq_cons heq (by decide)
      exact hparen ⟨s', rfl⟩
    have hdice' := hdice .nil
    rw [List.append_nil] at hdice'
    rw [groupAt_eq_dice tracer whole hdice'] at hnode
    have hreplays : Replays Node.bare depth (dice whole) (dice whole') :=
      replays_dice
    obtain ⟨w, hw, hspelled, hagain⟩ := hreplays hnode
    refine ⟨w, hw, hspelled, fun htail => ?_⟩
    rw [groupAt_eq_dice tracer whole' (hdice htail)]
    exact hagain htail

/-- Reading is replayed at any depth of parentheses. -/
theorem replays_expression (d depth : Nat) :
    Replays Node.bare depth (expression tracer whole d)
      (expression tracer whole' depth) := by
  induction d generalizing depth with
  | zero =>
      rw [expression_eq, expression_eq]
      refine replays_sum (replays_termAt (replays_groupAt ?_ depth))
      exact fun _ h => absurd h (Nat.succ_ne_zero _).symm
  | succ d ih =>
      rw [expression_eq, expression_eq]
      refine replays_sum (replays_termAt (replays_groupAt ?_ depth))
      rintro inner ⟨⟩
      exact ih

end Readers

/-! ## Parentheses around an expression -/

section Enclosing

variable {tracer : Tracer} {whole s tail : Text} {depth : Nat} {C : Prop}
  {node : Node}

/-- What is read as a group is read as an expression, if a closing parenthesis
or nothing follows it. -/
theorem fits_expression_of_groupAt
    (h : Fits (groupAt tracer whole depth s) C
      fun p => p.1.bare = node.bare ∧ p.2 = tail)
    (htail : AfterExpression tail) :
    Fits (expression tracer whole depth s) C
      fun p => p.1.bare = node.bare ∧ p.2 = tail := by
  have hends : TermEnds tail := htail.termEnds
  have hmark : ∀ more, tail ≠ '!' :: more := by
    rintro more rfl
    cases htail
  have hterm : Fits (termAt tracer whole depth s) C fun p =>
      p.1.bare = node.bare ∧ p.2 = tail := by
    refine h.andThen ?_
    rintro ⟨group, r⟩ ⟨hgroup, rfl⟩
    dsimp only
    rw [selected_none hends.selectionEnds, pure_bind]
    dsimp only
    rw [exploded_none hmark, pure_bind]
    dsimp only
    rw [suffixed_none _ htail.afterTerm]
    exact fits_of_accepts (accepts_pure trivial ⟨hgroup, rfl⟩)
  have hterms :
      Fits (terms (termAt tracer whole depth) (s.length + 1) s) C fun p =>
        (∃ again, p.1 = [again] ∧ again.bare = node.bare) ∧ p.2 = tail := by
    refine hterm.andThen ?_
    rintro ⟨again, r⟩ ⟨hagain, rfl⟩
    cases htail with
    | nil =>
        exact fits_of_accepts (accepts_pure trivial ⟨⟨again, rfl, hagain⟩, rfl⟩)
    | close rest =>
        exact fits_of_accepts (accepts_pure trivial ⟨⟨again, rfl, hagain⟩, rfl⟩)
  rw [expression_eq]
  refine hterms.andThen ?_
  rintro ⟨nodes, r⟩ ⟨⟨again, rfl, hagain⟩, rfl⟩
  exact fits_of_accepts (accepts_pure trivial ⟨hagain, rfl⟩)

/-- With an expression in parentheses, one more of them nests. -/
theorem Fits.enclosed
    (h : Fits (expression tracer whole depth (s ++ ')' :: tail)) C fun p =>
      p.1.bare = node.bare ∧ p.2 = ')' :: tail)
    (htail : AfterExpression tail) :
    Fits (expression tracer whole (depth + 1) ('(' :: (s ++ ')' :: tail))) C
      fun p => p.1.bare = node.bare ∧ p.2 = tail := by
  refine fits_expression_of_groupAt ?_ htail
  rw [groupAt, group]
  refine h.andThen ?_
  rintro ⟨again, r⟩ ⟨hagain, rfl⟩
  dsimp only
  rw [expect_self, scanned_ok, pure_bind]
  exact fits_of_accepts (accepts_pure trivial ⟨hagain, rfl⟩)

theorem fits_expression_innermost
    (htail : AfterExpression tail)
    (s : Text) :
    Fits (expression tracer whole 0 ('(' :: s)) False fun p =>
      p.1.bare = node.bare ∧ p.2 = tail :=
  fits_expression_of_groupAt (fun _ => ⟨id, rfl⟩) htail

/-- A text between as many opening and closing parentheses as said. -/
def enclosedBy (k : Nat) (s : Text) : Text :=
  List.replicate k '(' ++ s ++ List.replicate k ')'

theorem enclosedBy_succ (k : Nat) (s : Text) :
    enclosedBy (k + 1) s = '(' :: (enclosedBy k s ++ [')']) := by
  rw [enclosedBy, enclosedBy, List.replicate_succ, List.replicate_succ']
  simp only [List.cons_append, List.append_assoc]

/-- Every pair of parentheses around an expression counts. -/
theorem fits_enclosedBy
    (k : Nat)
    (hs : ∀ depth tail, AfterExpression tail →
      Fits (expression tracer whole depth (s ++ tail)) (s.nesting ≤ depth)
        fun p => p.1.bare = node.bare ∧ p.2 = tail)
    (depth : Nat)
    (htail : AfterExpression tail) :
    Fits (expression tracer whole depth (enclosedBy k s ++ tail))
      (s.nesting + k ≤ depth)
      fun p => p.1.bare = node.bare ∧ p.2 = tail := by
  induction k generalizing depth tail with
  | zero =>
      simp only [enclosedBy, List.replicate_zero, List.nil_append,
        List.append_nil, Nat.add_zero]
      exact hs depth tail htail
  | succ k ih =>
      have htext : enclosedBy (k + 1) s ++ tail =
          '(' :: (enclosedBy k s ++ ')' :: tail) := by
        rw [enclosedBy_succ]
        simp
      rw [htext]
      cases depth with
      | zero =>
          have hdeep : ¬s.nesting + (k + 1) ≤ 0 := by omega
          exact (fits_expression_innermost htail _).congr
            (iff_of_false id hdeep)
      | succ depth =>
          have hinner := ih depth (.close tail)
          exact (hinner.enclosed htail).congr (by omega)

theorem normalize_enclosedBy (k : Nat) (s : Text) :
    Text.normalize (enclosedBy k s) = enclosedBy k (Text.normalize s) := by
  have hparens {c : Char} (hc : c = '(' ∨ c = ')') :
      Text.normalize (List.replicate k c) = List.replicate k c := by
    rw [Text.normalize, List.filter_replicate]
    rcases hc with rfl | rfl <;> exact List.map_replicate
  rw [enclosedBy, normalize_append, normalize_append, hparens (.inl rfl),
    hparens (.inr rfl)]
  rfl

theorem fits_wholeText
    (hne : whole ≠ [])
    (h : Fits (expression tracer whole deepestNesting whole) C fun p =>
      p.1.bare = node.bare ∧ p.2 = []) :
    Fits (wholeText tracer whole) C fun again => again.bare = node.bare := by
  rw [wholeText, if_neg hne]
  refine h.andThen ?_
  rintro ⟨again, r⟩ ⟨hagain, rfl⟩
  exact fits_of_accepts (accepts_pure trivial hagain)

/-- A text that is read is read again wherever parentheses may nest as deep as
they do in it, with any text around it. -/
theorem fits_expression_again
    {text : Text}
    (h : (parse tracer text).Returns node)
    (whole : Text) (depth : Nat) (tail : Text)
    (htail : AfterExpression tail) :
    Fits (expression tracer whole depth (text.normalize ++ tail))
      (text.normalize.nesting ≤ depth)
      fun p => p.1.bare = node.bare ∧ p.2 = tail := by
  obtain ⟨-, hread⟩ := expression_of_wholeText h
  have hreplays : Replays Node.bare depth
      (expression tracer text.normalize deepestNesting)
      (expression tracer whole depth) :=
    replays_expression deepestNesting depth
  obtain ⟨w, hw, -, hagain⟩ := hreplays hread
  rw [List.append_nil] at hw
  rw [hw] at hagain ⊢
  exact hagain htail

end Enclosing
end Parse

open Parse Building in
/-- A text that is read may be put into any number of parentheses.  If they nest
at most 64 deep together with those in the text, a node of the same structure is
read, and if they nest deeper, the text is refused for that. -/
theorem parse_enclosedBy
    {tracer : Tracer} {text : Text} {node : Node}
    (h : (parse tracer text).Returns node)
    (k : Nat) (m : Memory) :
    (text.nesting + k ≤ 64 →
        ∃ again, (parse tracer (enclosedBy k text)).outcome m = .ok again ∧
          again.bare = node.bare) ∧
      (64 < text.nesting + k →
        (parse tracer (enclosedBy k text)).outcome m =
          .error (.badSyntax .nestedTooDeep)) := by
  obtain ⟨hne, -⟩ := expression_of_wholeText h
  have hfits : Fits (parse tracer (enclosedBy k text)) (text.nesting + k ≤ 64)
      fun again => again.bare = node.bare := by
    have hne' : enclosedBy k text.normalize ≠ [] := by
      rw [enclosedBy]
      simp [hne]
    have hwhole :=
      fits_enclosedBy k (fits_expression_again h (enclosedBy k text.normalize))
        deepestNesting .nil
    rw [List.append_nil, Text.nesting_normalize] at hwhole
    rw [parse, normalize_enclosedBy]
    exact fits_wholeText hne' hwhole
  have hm := hfits m
  cases hout : (parse tracer (enclosedBy k text)).outcome m with
  | ok again =>
      rw [hout] at hm
      exact ⟨fun _ => ⟨again, rfl, hm.2⟩, fun hdeep => absurd hm.1 (by omega)⟩
  | error e =>
      rw [hout] at hm
      exact ⟨fun hshallow => absurd hshallow hm.1, fun _ => by rw [hm.2]⟩

open Parse in
/-- Two groups in parentheses nest as deep as one, so 63 more pairs of
parentheses fit around them, and 64 do not. -/
theorem sum_of_groups_in_sixty_three_parentheses :
    (∃ again,
      (parse Tracer.silent (enclosedBy 63 "(d6) + (d6)".toList)).outcome
        Memory.empty = .ok again ∧
      again.bare = .pool 0 [.die 0 (.sided 6), .die 0 (.sided 6)]) ∧
      (parse Tracer.silent (enclosedBy 64 "(d6) + (d6)".toList)).outcome
        Memory.empty = .error (.badSyntax .nestedTooDeep) := by
  have hread : (parse Tracer.silent "(d6) + (d6)".toList).Returns
      (.pool 2 [.die 0 (.sided 6), .die 1 (.sided 6)]) := ⟨Memory.empty, by cbv⟩
  have hnesting : Text.nesting "(d6) + (d6)".toList = 1 := by decide
  refine ⟨(parse_enclosedBy hread 63 Memory.empty).1 ?_,
    (parse_enclosedBy hread 64 Memory.empty).2 ?_⟩
  · rw [hnesting]
  · rw [hnesting]
    decide

end DiceNotation
