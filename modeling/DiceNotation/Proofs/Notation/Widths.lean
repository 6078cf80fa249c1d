import DiceNotation.Proofs.Notation.Canonical

/-!
# Lengths of written sums

A sum that is written again never gets longer.  It keeps its text only if every
term keeps its own and no two neighbours are the same die, because a run of the
same die is gathered under a count, which is shorter than the run.
-/

namespace DiceNotation

/-- Neighbours in a sum that are not a run of the same die. -/
def Die.Apart (d d' : Option Die) : Prop :=
  d.isSome = true → d' ≠ d

namespace Summand

/-- The length of texts with a sign behind each of them. -/
def width (texts : List Text) : Nat :=
  (texts.map fun s => s.length + 1).sum

@[simp]
theorem width_nil : width [] = 0 :=
  rfl

@[simp]
theorem width_cons (s : Text) (texts : List Text) :
    width (s :: texts) = s.length + 1 + width texts := by
  simp [width]

theorem length_intercalate_add_one
    {texts : List Text}
    (h : texts ≠ []) :
    (['+'].intercalate texts).length + 1 = width texts := by
  induction texts with
  | nil => exact absurd rfl h
  | cons s texts ih =>
      by_cases hrest : texts = []
      · simp [hrest]
      · have hwidth := ih hrest
        rw [List.intercalate_cons_of_ne_nil hrest, width_cons, ← hwidth]
        simp
        omega

/-- A count of two or more has fewer digits than it counts. -/
theorem length_numeral_lt
    {count : Nat}
    (hcount : 2 ≤ count) :
    (numeral count).length < count := by
  obtain ⟨k, rfl⟩ : ∃ k, count = k + 1 := ⟨count - 1, by omega⟩
  have htwo : k < 2 ^ k := Nat.lt_two_pow_self
  have hten : 2 ^ k < 10 ^ k := Nat.pow_lt_pow_left (by decide) (by omega)
  have hdigits :=
    Nat.toDigitsCore_length 10 (k + 1 + 1) (k + 1) k (by omega) (by omega)
  exact Nat.lt_succ_of_le hdigits

theorem length_counted_lt
    {count : Nat}
    (hcount : 1 ≤ count)
    (text : Text) :
    (counted count text).length < text.length + count := by
  by_cases hmany : 1 < count
  · have hlength := length_numeral_lt hmany
    simp only [counted, hmany, if_true, List.length_append]
    omega
  · simp only [counted, hmany, if_false]
    omega

section Collapse

variable {first : Summand} {count : Nat} {rest : List Summand}

theorem width_collapseAfter_le
    (hcount : 1 ≤ count) :
    width (collapseAfter first count rest) ≤
      first.text.length + count + width (rest.map text) := by
  induction rest generalizing first count with
  | nil =>
      have hlength := length_counted_lt hcount first.text
      simp only [collapseAfter, width_cons, width_nil, List.map_nil]
      omega
  | cons next rest ih =>
      rw [collapseAfter]
      split
      · have hmore : width (collapseAfter first (count + 1) rest) ≤
            first.text.length + (count + 1) + width (rest.map text) :=
          ih (by omega)
        simp only [List.map_cons, width_cons]
        omega
      · have hlength := length_counted_lt hcount first.text
        have hmore : width (collapseAfter next 1 rest) ≤
            next.text.length + 1 + width (rest.map text) := ih le_rfl
        simp only [List.map_cons, width_cons]
        omega

/-- Where a run is gathered, the texts get shorter. -/
theorem width_collapseAfter_lt
    (hcount : 1 ≤ count)
    (htexts : ∀ s ∈ rest, s.text ≠ [])
    (hrun : ¬((first :: rest).map die).IsChain Die.Apart) :
    width (collapseAfter first count rest) <
      first.text.length + count + width (rest.map text) := by
  induction rest generalizing first count with
  | nil => simp at hrun
  | cons next rest ih =>
      rw [List.forall_mem_cons] at htexts
      rw [collapseAfter]
      split
      · have hmore : width (collapseAfter first (count + 1) rest) ≤
            first.text.length + (count + 1) + width (rest.map text) :=
          width_collapseAfter_le (by omega)
        have hnext := List.length_pos_iff.mpr htexts.1
        simp only [List.map_cons, width_cons]
        omega
      · rename_i hdifferent
        have hapart : Die.Apart first.die next.die := by
          intro hsome hsame
          simp [hsome, hsame] at hdifferent
        have hrest : ¬((next :: rest).map die).IsChain Die.Apart := by
          intro h
          exact hrun (List.isChain_cons_cons.mpr ⟨hapart, h⟩)
        have hlength := length_counted_lt hcount first.text
        have hmore : width (collapseAfter next 1 rest) <
            next.text.length + 1 + width (rest.map text) :=
          ih le_rfl htexts.2 hrest
        simp only [List.map_cons, width_cons]
        omega

/-- Where neighbours are apart, nothing is gathered. -/
theorem collapse_of_apart
    {summands : List Summand}
    (h : (summands.map die).IsChain Die.Apart) :
    collapse summands = summands.map text := by
  cases summands with
  | nil => rfl
  | cons first rest =>
      rw [collapse]
      induction rest generalizing first with
      | nil => rfl
      | cons next rest ih =>
          obtain ⟨hapart, hrest⟩ := List.isChain_cons_cons.mp h
          have hdifferent :
              ¬(first.die.isSome && decide (next.die = first.die)) = true := by
            rw [Bool.and_eq_true, decide_eq_true_eq]
            rintro ⟨hsome, hsame⟩
            exact hapart hsome hsame
          rw [collapseAfter, if_neg hdifferent, ih next hrest]
          simp [counted]

end Collapse

variable {summands : List Summand}

theorem width_collapse_le (summands : List Summand) :
    width (collapse summands) ≤ width (summands.map text) := by
  cases summands with
  | nil => simp [collapse]
  | cons first rest =>
      rw [List.map_cons, width_cons]
      exact width_collapseAfter_le le_rfl

theorem width_collapse_lt
    (htexts : ∀ s ∈ summands, s.text ≠ [])
    (hrun : ¬(summands.map die).IsChain Die.Apart) :
    width (collapse summands) < width (summands.map text) := by
  cases summands with
  | nil => simp at hrun
  | cons first rest =>
      rw [List.forall_mem_cons] at htexts
      rw [List.map_cons, width_cons]
      exact width_collapseAfter_lt le_rfl htexts.2 hrun

theorem collapse_ne_nil (h : summands ≠ []) : collapse summands ≠ [] := by
  cases summands with
  | nil => exact absurd rfl h
  | cons first rest => exact collapseAfter_ne_nil

end Summand

/-- A text is no longer than another one, and it is the same under a condition
that follows if it is as long. -/
structure Text.Narrows (s t : Text) (P : Prop) : Prop where
  length_le : s.length ≤ t.length
  of_length : s.length = t.length → P
  eq_of : P → s = t

namespace Text.Narrows

variable {s t : Text} {P : Prop}

theorem iff (h : Text.Narrows s t P) : s = t ↔ P :=
  ⟨fun heq => h.of_length (congrArg List.length heq), h.eq_of⟩

theorem of_length_lt
    (hlength : s.length < t.length)
    (hP : ¬P) :
    Text.Narrows s t P := by
  refine ⟨hlength.le, ?_, fun h => absurd h hP⟩
  intro hsame
  omega

theorem append
    (h : Text.Narrows s t P)
    (u : Text) :
    Text.Narrows (s ++ u) (t ++ u) P := by
  refine ⟨?_, ?_, ?_⟩
  · simpa using h.length_le
  · intro hsame
    exact h.of_length (by simpa using hsame)
  · intro hP
    rw [h.eq_of hP]

theorem parenthesize
    (h : Text.Narrows s t P) :
    Text.Narrows (Text.parenthesize s) (Text.parenthesize t) P := by
  refine ⟨?_, ?_, ?_⟩
  · simpa [Text.parenthesize] using h.length_le
  · intro hsame
    exact h.of_length (by simpa [Text.parenthesize] using hsame)
  · intro hP
    rw [h.eq_of hP]

theorem encloseAt
    {limit binding binding' : Binding}
    (hbinding : limit.rank ≤ binding.rank ↔ limit.rank ≤ binding'.rank)
    (h : Text.Narrows s t P) :
    Text.Narrows (Node.encloseAt limit binding s)
      (Node.encloseAt limit binding' t) P := by
  by_cases hlimit : limit.rank ≤ binding'.rank
  · simpa [Node.encloseAt, hbinding, hlimit] using h.parenthesize
  · simpa [Node.encloseAt, hbinding, hlimit] using h

end Text.Narrows

namespace Term

open Node

/-- The structure of the term is written as a single term, which is no longer
than the term, and the same text if it is as long. -/
structure Shrinks (t : Term) : Prop where
  plural : t.node.Plural
  binding_ne_sum : t.node.binding ≠ .sum
  narrows : Text.Narrows t.node.render t.text (t.node.render = t.text)

/-- No neighbours are the same die. -/
def Apart (ts : List Term) : Prop :=
  (ts.map fun t => t.node.die?).IsChain Die.Apart

/-- The terms keep their texts, and no neighbours are the same die. -/
structure Keep (ts : List Term) : Prop where
  render_eq : ∀ t ∈ ts, t.node.render = t.text
  apart : Apart ts

theorem keep_singleton_iff (t : Term) : Keep [t] ↔ t.node.render = t.text := by
  constructor
  · intro h
    exact h.render_eq t (List.mem_singleton_self t)
  · intro h
    exact ⟨by simpa using h, by simp [Apart]⟩

variable {ts : List Term}

theorem plural_sum
    (hne : ts ≠ [])
    (h : ∀ t ∈ ts, t.Shrinks) :
    (sum ts).Plural := by
  match ts, hne with
  | [t], _ => exact (h t (List.mem_singleton_self t)).plural
  | s :: t :: rest, _ =>
      apply Plural.pool
      · rw [List.forall_mem_map]
        exact fun t ht => (h t ht).plural
      · simp

theorem width_nodes_le
    (h : ∀ t ∈ ts, t.Shrinks) :
    Summand.width (ts.map fun t => t.node.render) ≤
      Summand.width (ts.map text) ∧
      (Summand.width (ts.map fun t => t.node.render) =
          Summand.width (ts.map text) →
        ∀ t ∈ ts, t.node.render = t.text) := by
  induction ts with
  | nil => simp
  | cons t ts ih =>
      rw [List.forall_mem_cons] at h
      obtain ⟨hle, heq⟩ := ih h.2
      have hfirst := h.1.narrows.length_le
      simp only [List.map_cons, Summand.width_cons, List.forall_mem_cons]
      refine ⟨by omega, ?_⟩
      intro hwidth
      exact ⟨h.1.narrows.of_length (by omega), heq (by omega)⟩

/-- What is read of the term, as a summand. -/
def toSummand (t : Term) : Summand :=
  ⟨t.node.die?, t.node.render⟩

/-- The sum of several terms is written as their collapsed texts. -/
theorem render_sum_of_two_le
    (hlength : 2 ≤ ts.length)
    (h : ∀ t ∈ ts, t.Shrinks) :
    (sum ts).render =
      ['+'].intercalate (Summand.collapse (ts.map toSummand)) := by
  rw [sum_of_length_ne_one (by omega), render_pool, summands_eq_map,
    List.map_map]
  · rfl
  · rw [List.forall_mem_map]
    exact fun t ht => (h t ht).plural.writtenAsTerms.groupFirst_render.ne_nil

/-- A sum of terms is written no longer than the terms were, and as they were
exactly if they keep their texts. -/
theorem narrows_render_sum
    (hne : ts ≠ [])
    (h : ∀ t ∈ ts, t.Shrinks) :
    Text.Narrows (sum ts).render (['+'].intercalate (ts.map text))
      (Keep ts) := by
  by_cases hlength : 2 ≤ ts.length
  · have htexts : ts.map text ≠ [] := mt List.map_eq_nil_iff.mp hne
    have hsummands : ts.map toSummand ≠ [] := mt List.map_eq_nil_iff.mp hne
    have hlong := Summand.length_intercalate_add_one htexts
    have hshort :=
      Summand.length_intercalate_add_one (Summand.collapse_ne_nil hsummands)
    have hcollapse : Summand.width (Summand.collapse (ts.map toSummand)) ≤
        Summand.width (ts.map fun t => t.node.render) := by
      have hle := Summand.width_collapse_le (ts.map toSummand)
      rwa [List.map_map] at hle
    obtain ⟨hle, heq⟩ := width_nodes_le h
    rw [render_sum_of_two_le hlength h]
    refine ⟨by omega, ?_, ?_⟩
    · intro hsame
      refine ⟨heq (by omega), ?_⟩
      by_contra hrun
      have hless : Summand.width (Summand.collapse (ts.map toSummand)) <
          Summand.width ((ts.map toSummand).map Summand.text) := by
        apply Summand.width_collapse_lt
        · rw [List.forall_mem_map]
          exact fun t ht =>
            (h t ht).plural.writtenAsTerms.groupFirst_render.ne_nil
        · rwa [List.map_map]
      rw [List.map_map] at hless
      change _ < Summand.width (ts.map fun t => t.node.render) at hless
      omega
    · intro hkeep
      have hapart : ((ts.map toSummand).map Summand.die).IsChain Die.Apart := by
        rw [List.map_map]
        exact hkeep.apart
      rw [Summand.collapse_of_apart hapart, List.map_map]
      congr 1
      exact List.map_congr_left hkeep.render_eq
  · obtain ⟨t, rfl⟩ : ∃ t, ts = [t] := by
      rw [← List.length_eq_one_iff]
      have hpos := List.length_pos_iff.mpr hne
      omega
    simpa [sum, keep_singleton_iff]
      using (h t (List.mem_singleton_self t)).narrows

end Term
end DiceNotation
