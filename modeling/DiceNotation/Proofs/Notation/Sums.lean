import DiceNotation.Proofs.Notation.Levels

/-!
# Reading sums

Terms with plus signs between them are read one after the other.  Only one
thing can go wrong between two terms: a count right behind a comparator without
threshold is taken for the threshold, and reading gets stuck at the die.
-/

namespace DiceNotation

open Building Node

namespace Parse

/-- A term that can be read between other terms, unless it ends with a
comparator and a count follows. -/
structure ReadsInSum (tracer : Tracer) (whole : Text) (t : Term) : Prop where
  groupFirst : GroupFirst t.text
  spelled : Text.Spelled t.text
  reads : ∀ ⦃depth : Nat⦄ ⦃rest : Text⦄, AfterTerm rest →
    Reads (termAt tracer whole depth (t.text ++ rest))
      (t.Readable depth ∧ ¬(t.node.isOpen = true ∧ CountFollows rest))
      (fun n => n.bare = t.node) rest

variable {tracer : Tracer} {whole : Text}

/-! ## Single terms -/

/-- Nothing more is read behind a term. -/
theorem reads_of_before
    {t : Term} {used depth : Nat} {rest : Text}
    (hbefore : ReadsBefore tracer whole t used)
    (hrest : AfterTerm rest)
    (hopen : ¬(t.node.isOpen = true ∧ CountFollows rest)) :
    Reads (termAt tracer whole depth (t.text ++ rest))
      (t.Readable depth ∧ ¬(t.node.isOpen = true ∧ CountFollows rest))
      (fun n => n.bare = t.node) rest := by
  have hsigned : t.node.isOpen = true → SignedEnds rest := fun h =>
    signedEnds_of_not_countFollows hrest fun hcount => hopen ⟨h, hcount⟩
  refine hbefore hrest.termEnds hsigned ?_
  intro allowed n _ hn
  rw [suffixed_none allowed hrest]
  exact reads_pure hopen hn

theorem readsInSum_of_closed
    {t : Term} {used : Nat}
    (hgroup : GroupFirst t.text)
    (hspelled : Text.Spelled t.text)
    (hbefore : ReadsBefore tracer whole t used)
    (hclosed : t.node.isOpen = false) :
    ReadsInSum tracer whole t := by
  refine ⟨hgroup, hspelled, ?_⟩
  intro depth rest hrest
  refine reads_of_before hbefore hrest ?_
  rw [hclosed]
  rintro ⟨⟨⟩, -⟩

theorem readsInSum_dice
    {d : Die} {count : Nat}
    (hd : d.WellFormed)
    (hcount : 1 ≤ count) :
    ReadsInSum tracer whole (Term.dice count d) := by
  have hselection : ReadsAsSelection tracer whole (Term.dice count d) :=
    readsAsSelection_of_group (readsAsGroup_dice hd hcount)
  refine readsInSum_of_closed (groupFirst_dice count d)
    (Term.spelled_dice count d)
    (readsBefore_of_selection hselection) ?_
  rw [Term.dice]
  dsimp only
  split <;> rfl

/-- A count behind a comparator is taken for the threshold.  If it is no value
it is refused, and if it is one then reading gets stuck behind it. -/
theorem reads_stuck_at_count
    {inner : Node} {depth : Nat} {rest : Text} {R : Node → Prop}
    (hinner : ReadsAsSelection tracer whole (inner.written .explode))
    (hrest : AfterTerm rest)
    (hcount : CountFollows rest) :
    Reads (termAt tracer whole depth
      ((inner.written .explode).text ++ '!' :: '>' :: rest)) False R rest := by
  obtain ⟨digits, after, hdigits, hne, rfl⟩ :=
    exists_digits_of_countFollows hrest hcount
  have hcomparator : Parse.comparator ('>' :: '+' :: (digits ++ 'D' :: after)) =
      (some .greater, '+' :: (digits ++ 'D' :: after)) := rfl
  rcases integer_of_count hdigits hne after with ⟨threshold, hthreshold⟩ |
    ⟨fault, hfault⟩
  · refine (reads_exploding (C := False) hinner hcomparator hthreshold rfl
      fun {n} _ => ?_).congr (by tauto) fun _ _ h => h
    rw [suffixed_stuck mostSuffixes ⟨after, rfl⟩]
    exact reads_stuck n ⟨after, rfl⟩ id
  · exact reads_exploding_refused hinner hcomparator hfault

theorem readsInSum_explode
    {id : NodeId} {tracer' : Tracer} {comparator : Comparator}
    {threshold : Option Int} {inner : Node}
    (hgroup : GroupFirst
      ((explode id tracer' comparator threshold inner).written .sum).text)
    (hinner : ReadsAsSelection tracer whole (inner.written .explode))
    (hwellFormed : (explode id tracer' comparator threshold inner).WellFormed) :
    ReadsInSum tracer whole
      ((explode id tracer' comparator threshold inner).written .sum) := by
  refine ⟨hgroup, spelled_written _ _, ?_⟩
  intro depth rest hrest
  by_cases hstuck :
    ((explode id tracer' comparator threshold inner).written .sum).node.isOpen =
      true ∧ CountFollows rest
  · obtain ⟨hopen, hcount⟩ := hstuck
    have hgreater : comparator = .greater ∧ threshold = none := by
      cases comparator <;> cases threshold <;>
        first | exact ⟨rfl, rfl⟩ | cases hopen
    obtain ⟨rfl, rfl⟩ := hgreater
    rw [written_explode_text, List.append_assoc]
    exact (reads_stuck_at_count hinner hrest hcount).congr
      (iff_of_false not_false fun h => h.2 ⟨hopen, hcount⟩) fun _ _ h => h
  · exact reads_of_before (readsBefore_explode hinner hwellFormed) hrest hstuck

/-! ## Several terms -/

/-- What follows a term that is not the last one. -/
theorem countFollows_intercalate
    {t : Term}
    (ts : List Term)
    (rest : Text)
    (ht : GroupFirst t.text) :
    GroupFirst (['+'].intercalate ((t :: ts).map Term.text) ++ rest) ∧
      (CountFollows
          ('+' :: (['+'].intercalate ((t :: ts).map Term.text) ++ rest)) ↔
        t.isCounted = true) := by
  obtain ⟨more, hmore⟩ : ∃ more,
    ['+'].intercalate ((t :: ts).map Term.text) ++ rest =
      t.text ++ more := by
    cases ts with
    | nil =>
        exact ⟨rest, by rw [List.map_singleton, List.intercalate_singleton]⟩
    | cons t' ts =>
        refine ⟨'+' :: (['+'].intercalate ((t' :: ts).map Term.text) ++ rest),
          ?_⟩
        rw [List.map_cons, List.map_cons, List.intercalate_cons_cons,
          List.append_assoc, List.append_assoc]
        rfl
  rw [hmore]
  refine ⟨ht.append more, ?_⟩
  rw [CountFollows, Term.isCounted]
  cases htext : t.text with
  | nil => exact absurd htext ht.ne_nil
  | cons c s =>
      rw [List.cons_append, List.head?_cons, Option.any_some]
      constructor
      · rintro ⟨_, _, ⟨⟩, hc⟩
        exact hc
      · intro hc
        exact ⟨c, s ++ more, rfl, hc⟩

/-- The conditions under which terms are read one after the other. -/
def AllReadable (ts : List Term) (depth : Nat) : Prop :=
  Term.areLegible ts = true ∧ ∀ t ∈ ts, t.text.nesting ≤ depth ∧
    t.node.WellFormed

theorem allReadable_singleton
    {t : Term} {depth : Nat} :
    AllReadable [t] depth ↔ t.Readable depth := by
  rw [AllReadable, List.forall_mem_singleton]
  exact Iff.rfl

theorem allReadable_cons_cons
    {s t : Term} {ts : List Term} {depth : Nat} :
    AllReadable (s :: t :: ts) depth ↔
      (s.Readable depth ∧ ¬(s.node.isOpen = true ∧ t.isCounted = true)) ∧
        AllReadable (t :: ts) depth := by
  rw [AllReadable, AllReadable, List.forall_mem_cons, Term.areLegible,
    Term.Readable]
  simp only [Bool.and_eq_true, Bool.not_eq_true', Bool.and_eq_false_iff]
  grind

/-- The last term stands at the end of the text or of its parentheses. -/
theorem reads_last_term
    {t : Term} {limit depth : Nat} {rest : Text}
    (ht : ReadsInSum tracer whole t)
    (hrest : rest = [] ∨ ∃ more, rest = ')' :: more) :
    Reads (terms (termAt tracer whole depth) (limit + 1) (t.text ++ rest))
      (t.Readable depth) (fun ns => ns.map bare = [t.node]) rest := by
  have hafter : AfterTerm rest := by
    rcases hrest with rfl | ⟨more, rfl⟩
    · exact .nil
    · exact .close more
  have hplus (more : Text) : rest ≠ '+' :: more := by
    rintro rfl
    rcases hrest with h | ⟨_, h⟩ <;> cases h
  have hlast : t.Readable depth ↔
      t.Readable depth ∧ ¬(t.node.isOpen = true ∧ CountFollows rest) := by
    refine (and_iff_left ?_).symm
    rintro ⟨-, c, more, hmore, -⟩
    exact hplus (c :: more) hmore
  rw [terms, hlast]
  refine (ht.reads hafter).andThen ?_ ?_
  · intro _ n hn
    dsimp only
    split
    · exact absurd rfl (hplus _)
    · exact reads_pure trivial (by rw [List.map_singleton, hn])
  · rintro n r ⟨more, rfl⟩
    exact reads_stuck [n] ⟨more, rfl⟩ id

/-- Another term is read in front of the terms that follow it. -/
theorem reads_next_term
    {t : Term} {limit depth : Nat} {more rest : Text}
    {C : Prop} {ts : List Node}
    (ht : ReadsInSum tracer whole t)
    (hmore : GroupFirst more)
    (hothers : Reads (terms (termAt tracer whole depth) limit more) C
      (fun ns => ns.map bare = ts) rest) :
    Reads
      (terms (termAt tracer whole depth) (limit + 1) (t.text ++ '+' :: more))
      ((t.Readable depth ∧
        ¬(t.node.isOpen = true ∧ CountFollows ('+' :: more))) ∧ C)
      (fun ns => ns.map bare = t.node :: ts) rest := by
  rw [terms]
  refine (ht.reads (.term hmore)).bind ?_ ?_
  · intro _ n hn
    change Reads (if startsGroup more = true then _ else _) _ _ _
    rw [if_pos hmore.startsGroup]
    refine hothers.andThen ?_ ?_
    · intro _ ns hns
      exact reads_pure trivial (by rw [List.map_cons, hn, hns])
    · intro ns r hr
      exact reads_stuck _ hr id
  · rintro n r ⟨more, rfl⟩
    exact reads_stuck [n] ⟨more, rfl⟩ id

/-- Terms are read one after the other, from the left to the right. -/
theorem reads_terms
    {ts : List Term} {limit depth : Nat} {rest : Text}
    (hne : ts ≠ [])
    (hterms : ∀ t ∈ ts, ReadsInSum tracer whole t)
    (hlimit : ts.length ≤ limit)
    (hrest : rest = [] ∨ ∃ more, rest = ')' :: more) :
    Reads (terms (termAt tracer whole depth) limit
        (['+'].intercalate (ts.map Term.text) ++ rest))
      (AllReadable ts depth)
      (fun ns => ns.map bare = ts.map Term.node) rest := by
  induction ts generalizing limit with
  | nil => exact absurd rfl hne
  | cons s ts ih =>
      rw [List.forall_mem_cons] at hterms
      obtain ⟨hs, hts⟩ := hterms
      obtain ⟨limit, rfl⟩ :=
        Nat.exists_eq_add_one_of_ne_zero (Nat.ne_zero_of_lt hlimit)
      cases ts with
      | nil =>
          rw [List.map_singleton, List.intercalate_singleton,
            allReadable_singleton]
          exact reads_last_term hs hrest
      | cons t ts =>
          -- Whether the next term has a count decides whether this one can be
          -- read.
          obtain ⟨hgroup, hcount⟩ := countFollows_intercalate ts rest
            (hts t List.mem_cons_self).groupFirst
          have hothers :=
            ih (List.cons_ne_nil _ _) hts (Nat.le_of_succ_le_succ hlimit)
          rw [List.map_cons, List.map_cons,
            List.intercalate_cons_cons, ← List.map_cons,
            List.append_assoc, List.append_assoc, List.singleton_append,
            allReadable_cons_cons, ← hcount]
          exact reads_next_term hs hgroup hothers

/-! ## Sums -/

theorem wellFormed_sum
    {ts : List Term}
    (hne : ts ≠ []) :
    (Term.sum ts).WellFormed ↔ ∀ t ∈ ts, t.node.WellFormed := by
  match ts, hne with
  | [t], _ => rw [Term.sum, List.forall_mem_singleton]
  | s :: t :: ts, _ =>
      rw [Term.sum_of_length_ne_one (by simp), wellFormed_iff_members, members,
        List.forall_mem_map]

/-- The node that is returned for terms is their sum. -/
theorem bare_eq_sum_of_pooled
    {ns : List Node} {n : Node} {ts : List Term}
    (h : ns = [n] ∨ ns.length ≠ 1 ∧ ∃ id, n = .pool id ns)
    (hts : ns.map bare = ts.map Term.node) :
    n.bare = Term.sum ts := by
  rcases h with rfl | ⟨hns, id, rfl⟩
  · obtain ⟨t, rfl, ht⟩ := List.map_eq_singleton_iff.mp hts.symm
    exact ht.symm
  · have hlength := congrArg List.length hts
    rw [List.length_map, List.length_map] at hlength
    rw [bare_pool, hts, Term.sum_of_length_ne_one (hlength ▸ hns)]

/-- Several terms are put in a pool. -/
theorem readsAsSum_of_terms
    {node : Node}
    (hwritten : WrittenAsTerms node)
    (hterms : ∀ t ∈ node.terms, ReadsInSum tracer whole t) :
    ReadsAsSum tracer whole node := by
  intro depth rest hrest
  have hne := hwritten.terms_ne_nil
  have hlength : node.terms.length ≤ (node.render ++ rest).length + 1 := by
    have htexts : ∀ s ∈ node.terms.map Term.text, s ≠ [] :=
      List.forall_mem_map.mpr fun t ht => (hterms t ht).groupFirst.ne_nil
    have hrender := Text.length_le_length_intercalate htexts
    rw [← hwritten.render_eq, List.length_map] at hrender
    rw [List.length_append]
    omega
  have hcondition : AllReadable node.terms depth ↔
      node.isLegible = true ∧ node.render.nesting ≤ depth ∧
      node.reread.WellFormed := by
    have hspelled : ∀ s ∈ node.terms.map Term.text, Text.Spelled s :=
      List.forall_mem_map.mpr fun t ht => (hterms t ht).spelled
    rw [AllReadable, isLegible, reread, wellFormed_sum hne, hwritten.render_eq,
      Text.nesting_intercalate_le hspelled, List.forall_mem_map, forall₂_and]
  have hread : Reads (terms (termAt tracer whole depth)
      ((node.render ++ rest).length + 1)
      (['+'].intercalate (node.terms.map Term.text) ++ rest))
      (AllReadable node.terms depth)
        (fun ns => ns.map bare = node.terms.map Term.node) rest :=
    reads_terms hne hterms hlength hrest
  rw [← hwritten.render_eq] at hread
  rw [expression_eq, sum]
  refine (hread.congr hcondition fun _ _ h => h).andThen ?_ ?_
  · intro _ ns hns
    refine reads_of_accepts ((accepts_pooled ns rest).congr Iff.rfl ?_)
    rintro - p ⟨hp, hr⟩
    exact ⟨bare_eq_sum_of_pooled hp hns, hr⟩
  · intro ns r hr
    refine reads_stuck_of_accepts ((accepts_pooled ns r).congr Iff.rfl ?_)
    rintro - p ⟨-, rfl⟩
    exact hr

end Parse
end DiceNotation
