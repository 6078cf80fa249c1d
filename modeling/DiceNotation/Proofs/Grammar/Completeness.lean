import DiceNotation.Proofs.Grammar.Rules
import DiceNotation.Proofs.Parse.Reads

/-!
# What is grammatical is read

A text that the grammar derives is not refused as a text: it is read to its
end, or refused for a node that it stands for.  There is one exception.  A
comparator without threshold takes the count of the die behind a plus sign for
its threshold, and nothing can make sense of the rest of that die.
-/

namespace DiceNotation

/-- The cause lies in a node, not in the text. -/
def Error.OfNode (e : Error) : Prop :=
  e.kind ≠ .text

namespace Grammar

/-- The text goes on with a plus sign and a die with a written count. -/
def CountBehind (text : Text) : Prop :=
  ∃ count more : Text, (∀ c ∈ count, c.isDigit = true) ∧ count ≠ [] ∧
    text = '+' :: (count ++ 'D' :: more)

/-- Somewhere in the text, a plus sign and a die with a written count stand
directly behind a comparator. -/
def Misleading (text : Text) : Prop :=
  ∃ before, ∃ comparator : Comparator, ∃ after,
    text = before ++ comparator.symbol :: after ∧ CountBehind after

end Grammar

namespace Parse

open Building Grammar

/-! ## Comparators with a count behind them -/

/-- A text with a given rest behind it is misleading, by a comparator of its
own. -/
def Misleads : Text → Text → Prop
  | [], _ => False
  | c :: s, rest =>
      (∃ comparator : Comparator, c = comparator.symbol) ∧
        CountBehind (s ++ rest) ∨
        Misleads s rest

/-- The text has no comparator. -/
def Plain (s : Text) : Prop :=
  ∀ c ∈ s, Comparator.ofSymbol? c = none

theorem misleads_append (s t rest : Text) :
    Misleads (s ++ t) rest ↔ Misleads s (t ++ rest) ∨ Misleads t rest := by
  induction s with
  | nil => exact (false_or _).symm.to_iff
  | cons c s ih =>
      rw [List.cons_append, Misleads, Misleads, ih, List.append_assoc, or_assoc]

theorem Plain.not_misleads
    {s : Text}
    (hs : Plain s)
    (rest : Text) :
    ¬Misleads s rest := by
  induction s with
  | nil => exact id
  | cons c s ih =>
      rintro (⟨⟨comparator, rfl⟩, -⟩ | h)
      · have hnone := hs comparator.symbol List.mem_cons_self
        rw [Comparator.ofSymbol?_symbol] at hnone
        cases hnone
      · exact ih (fun c hc => hs c (List.mem_cons_of_mem _ hc)) h

theorem misleads_plain_append
    {s : Text}
    (hs : Plain s)
    (t rest : Text) :
    Misleads (s ++ t) rest ↔ Misleads t rest := by
  rw [misleads_append]
  exact or_iff_right (hs.not_misleads _)

theorem misleads_append_plain
    {t : Text}
    (ht : Plain t)
    (s rest : Text) :
    Misleads (s ++ t) rest ↔ Misleads s (t ++ rest) := by
  rw [misleads_append]
  exact or_iff_left (ht.not_misleads _)

theorem misleading_iff (text : Text) : Misleading text ↔ Misleads text [] := by
  constructor
  · rintro ⟨before, comparator, after, rfl, hcount⟩
    rw [misleads_append]
    refine Or.inr (Or.inl ⟨⟨comparator, rfl⟩, ?_⟩)
    rw [List.append_nil]
    exact hcount
  · intro h
    induction text with
    | nil => exact h.elim
    | cons c text ih =>
        rcases h with ⟨⟨comparator, rfl⟩, hcount⟩ | h
        · rw [List.append_nil] at hcount
          exact ⟨[], comparator, text, rfl, hcount⟩
        · obtain ⟨before, comparator, after, rfl, hcount⟩ := ih h
          exact ⟨c :: before, comparator, after, rfl, hcount⟩

theorem startsGroup_of_countBehind
    {s : Text}
    (h : CountBehind ('+' :: s)) :
    startsGroup s = true := by
  obtain ⟨count, more, hcount, -, heq⟩ := h
  rw [List.cons.injEq] at heq
  exact GroupFirst.startsGroup (Or.inl ⟨count, more, hcount, heq.2⟩)

theorem eq_plus_of_countBehind
    {c : Char} {s : Text}
    (h : CountBehind (c :: s)) :
    c = '+' := by
  obtain ⟨count, more, -, -, heq⟩ := h
  rw [List.cons.injEq] at heq
  exact heq.1

/-! ## Words without comparators -/

theorem Plain.append
    {s t : Text}
    (hs : Plain s)
    (ht : Plain t) :
    Plain (s ++ t) := by
  intro c hc
  rcases List.mem_append.mp hc with h | h
  · exact hs c h
  · exact ht c h

theorem Plain.cons
    {c : Char} {s : Text}
    (hc : Comparator.ofSymbol? c = none)
    (hs : Plain s) :
    Plain (c :: s) := by
  intro d hd
  rcases List.mem_cons.mp hd with rfl | h
  · exact hc
  · exact hs d h

theorem plain_nil : Plain [] := by
  rintro c ⟨⟩

theorem ofSymbol?_of_isDigit
    {c : Char}
    (hc : c.isDigit = true) :
    Comparator.ofSymbol? c = none := by
  unfold Comparator.ofSymbol?
  split
  · cases hc
  · cases hc
  · cases hc
  · rfl

theorem plain_of_decimal
    {s : Text} {n : Nat}
    (hs : Decimal s n) :
    Plain s :=
  fun c hc => ofSymbol?_of_isDigit (hs.isDigit c hc)

theorem plain_of_signed
    {s : Text} {n : Int}
    (hs : Signed s n) :
    Plain s := by
  cases hs with
  | plain hs => exact plain_of_decimal hs.decimal
  | plus hs => exact (plain_of_decimal hs.decimal).cons rfl
  | minus hs _ => exact (plain_of_decimal hs).cons rfl

theorem plain_of_faces
    {s : Text} {ns : List Int}
    (hs : Faces s ns) :
    Plain s := by
  induction hs with
  | last hs => exact plain_of_signed hs
  | next hs _ ih => exact (plain_of_signed hs).append (ih.cons rfl)

theorem plain_of_sides
    {s : Text} {d : Die}
    (hs : Sides s d) :
    Plain s := by
  cases hs with
  | number hs _ => exact plain_of_decimal hs.decimal
  | fudge => exact plain_nil.cons rfl
  | hundred => exact plain_nil.cons rfl
  | listed hs _ =>
      exact ((plain_of_faces hs).append (plain_nil.cons rfl)).cons rfl

theorem plain_of_count
    {most n : Nat} {s : Text}
    (hs : Count most s n) :
    Plain s := by
  cases hs with
  | omitted => exact plain_nil
  | number hs _ _ => exact plain_of_decimal hs.decimal

theorem plain_code (selection : Selection) : Plain selection.code := by
  cases selection <;> exact (plain_nil.cons rfl).cons rfl

theorem plain_of_selected
    {tracer : Tracer} {inner node : Node} {s : Text}
    (hs : Selected tracer inner s node) :
    Plain s := by
  cases hs with
  | none => exact plain_nil
  | single _ selection => exact plain_code selection
  | threshold _ selection hs =>
      exact (plain_code selection).append (plain_of_decimal hs.decimal)

theorem plain_of_suffixed
    {tracer : Tracer} {allowed : Nat} {inner node : Node} {s : Text}
    (hs : Suffixed tracer allowed inner s node) :
    Plain s := by
  induction hs with
  | none => exact plain_nil
  | suffix _ op hs _ ih =>
      refine ((plain_of_decimal hs.decimal).append ih).cons ?_
      cases op <;> rfl

/-! ## What follows a stage of a term -/

theorem termEnds_of_suffixed
    {tracer : Tracer} {allowed : Nat} {inner node : Node} {s rest : Text}
    (hs : Suffixed tracer allowed inner s node)
    (hrest : TermEnds rest) :
    TermEnds (s ++ rest) := by
  cases hs with
  | none => exact hrest
  | suffix _ op _ _ => exact termEnds_symbol op _

theorem numeralEnds_of_exploded
    {tracer : Tracer} {inner node : Node} {s rest : Text}
    (hs : Exploded tracer inner s node)
    (hrest : TermEnds rest) :
    NumeralEnds (s ++ rest) := by
  cases hs with
  | none => exact hrest.numeralEnds
  | _ => exact numeralEnds_cons (by decide) _

theorem selectionEnds_of_exploded
    {tracer : Tracer} {inner node : Node} {s rest : Text}
    (hs : Exploded tracer inner s node)
    (hrest : TermEnds rest) :
    SelectionEnds (s ++ rest) := by
  cases hs with
  | none => exact hrest.selectionEnds
  | _ =>
      rintro c ⟨⟩
      decide

theorem numeralEnds_of_selected
    {tracer : Tracer} {inner node : Node} {s rest : Text}
    (hs : Selected tracer inner s node)
    (hrest : NumeralEnds rest) :
    NumeralEnds (s ++ rest) := by
  have hcode (selection : Selection) (t : Text) :
      NumeralEnds (selection.code ++ t) := by
    cases selection <;> exact numeralEnds_cons (by decide) _
  cases hs with
  | none => exact hrest
  | single _ selection => exact hcode selection rest
  | threshold _ selection _ =>
      rw [List.append_assoc]
      exact hcode selection _

/-- A suffix is no die with a count. -/
theorem not_countBehind_of_suffix
    {op : Operator} {s rest : Text} {n : Nat}
    (hs : Number s n)
    (hrest : TermEnds rest) :
    ¬CountBehind (op.symbol :: (s ++ rest)) := by
  intro h
  have hplus := eq_plus_of_countBehind h
  cases op with
  | add =>
      have hgroup := startsGroup_of_countBehind h
      rw [startsGroup_of_digits hs.decimal.isDigit hrest] at hgroup
      cases hgroup
  | _ => cases hplus

/-- Neither is a threshold, with or without a sign. -/
theorem not_countBehind_of_signed
    {s rest : Text} {n : Int}
    (hs : Signed s n)
    (hrest : TermEnds rest) :
    ¬CountBehind (s ++ rest) := by
  cases hs with
  | plain hs =>
      rintro ⟨count, more, -, -, heq⟩
      exact ne_cons_of_digits hs.decimal.isDigit hs.decimal.ne_nil
        (by decide) heq
  | plus hs => exact @not_countBehind_of_suffix .add _ _ _ hs hrest
  | minus =>
      intro h
      cases eq_plus_of_countBehind h

/-! ## Stages -/

variable {tracer tracer' : Tracer} {whole : Text}

/-- Reading to the rest of a text, exactly under a condition, unless a node is
refused; otherwise refusal. -/
abbrev Completes {α : Type} (b : Building (α × Text)) (condition : Prop)
    (rest : Text) : Prop :=
  AcceptsUnless Error.OfNode b condition fun p => p.2 = rest

/-- Reading to the rest of a text, exactly under a condition, unless a node is
refused; otherwise refusal or getting stuck. -/
abbrev CompletesOrSticks {α : Type} (b : Building (α × Text)) (condition : Prop)
    (rest : Text) : Prop :=
  ReadsUnless Error.OfNode b condition (fun _ => True) rest

/-- What is built last decides on refusal only. -/
theorem completes_of_refusedFor
    {α : Type} {x : Building α}
    (hx : x.RefusedFor Error.OfNode)
    (rest : Text) :
    Completes (x >>= fun a => pure (a, rest)) True rest :=
  hx.andThen fun _ _ => accepts_pure trivial rfl

theorem completes_dice
    {n : Nat} {s t rest : Text} {d : Die}
    (hs : Count mostCopies s n)
    (ht : Sides t d)
    (hrest : NumeralEnds rest) :
    Completes (dice whole (s ++ 'D' :: (t ++ rest))) True rest := by
  rw [dice, countedDie_of_sides hs ht whole hrest, scanned_ok, pure_bind]
  refine (Build.refusedFor_die d).andThen fun node _ => ?_
  split
  · exact accepts_pure trivial rfl
  · refine completes_of_refusedFor
      ((Build.refusedFor_repeated node n).mono ?_) rest
    rintro e (⟨-, rfl⟩ | ⟨-, rfl⟩) <;> exact nofun

theorem completes_selected
    {inner inner' node' : Node} {s rest : Text}
    (hs : Selected tracer' inner' s node')
    (hnumeral : NumeralEnds rest)
    (hselection : SelectionEnds rest) :
    Completes (selected tracer inner (s ++ rest)) True rest := by
  have hbuilt (selection : Selection) (threshold : Int) :
      Completes (Build.dropKeep (some inner) selection threshold
        tracer >>= fun node =>
          pure (node, rest)) True rest := by
    refine completes_of_refusedFor
      ((Build.refusedFor_dropKeep _ _ _ _).mono ?_) rest
    rintro e (⟨-, rfl⟩ | ⟨-, rfl⟩ | ⟨-, rfl⟩) <;> exact nofun
  cases hs with
  | none =>
      rw [List.nil_append, selected_none hselection]
      exact accepts_pure trivial rfl
  | single _ selection =>
      rw [selected, selection_of_code, scanned_ok, pure_bind]
      dsimp only
      rw [integer_unsigned_none hnumeral, scanned_ok, pure_bind]
      exact hbuilt selection 1
  | threshold _ selection hs =>
      rw [selected, List.append_assoc, selection_of_code, scanned_ok, pure_bind]
      dsimp only
      rw [integer_of_number hs hnumeral, scanned_ok, pure_bind]
      exact hbuilt selection _

/-- Fewer suffixes than allowed are read. -/
theorem completes_suffixed
    {allowed allowed' : Nat} {inner inner' node' : Node} {s rest : Text}
    (hs : Suffixed tracer' allowed' inner' s node')
    (hallowed : allowed' ≤ allowed)
    (hrest : AfterTerm rest) :
    CompletesOrSticks (suffixed tracer whole allowed inner (s ++ rest))
      True rest := by
  induction hs generalizing allowed inner with
  | none =>
      rw [List.nil_append, suffixed_none allowed hrest]
      exact reads_pure trivial trivial
  | suffix _ op hnumber hmore ih =>
      cases allowed with
      | zero => cases hallowed
      | succ allowed =>
          rw [List.cons_append, List.append_assoc,
            suffixed_of_number hnumber _
              (termEnds_of_suffixed hmore hrest.termEnds)]
          refine reads_bind_of_refusedFor
            ((Build.refusedFor_arithmetic _ _ _ _).mono ?_)
            fun node => ih (Nat.le_of_succ_le_succ hallowed)
          rintro e (⟨-, rfl⟩ | ⟨-, -, rfl⟩) <;> exact nofun

/-! ## Explosions -/

section Explosions

variable {inner : Node} {more more' rest : Text}
  {found : Option Comparator} {C : Prop}
  {f : Node × Text → Building (Node × Text)}

theorem completes_exploding
    {after : Text} {threshold : Option Int}
    (hcomparator : comparator more = (found, more'))
    (hthreshold : integer found.isSome more' = .ok (threshold, after))
    (hf : ∀ node, CompletesOrSticks (f (node, after)) C rest) :
    CompletesOrSticks (exploded tracer inner ('!' :: more) >>= f) C rest := by
  rw [exploded, hcomparator]
  dsimp only
  rw [hthreshold, scanned_ok, pure_bind, bind_assoc]
  refine reads_bind_of_refusedFor
    ((Build.refusedFor_explode _ _ _ _).mono ?_) hf
  rintro e (⟨-, rfl⟩ | hkind)
  · exact nofun
  · rw [Error.OfNode, hkind]
    exact nofun

theorem completes_exploding_refused
    {fault : SyntaxFault}
    (hcomparator : comparator more = (found, more'))
    (hthreshold : integer found.isSome more' = .error fault)
    (hC : ¬C) :
    CompletesOrSticks (exploded tracer inner ('!' :: more) >>= f) C rest := by
  rw [exploded, hcomparator]
  dsimp only
  rw [hthreshold, scanned_error]
  exact fun _ h => absurd h hC

end Explosions

/-- At the end of its term, a comparator without threshold takes a count behind
it for its threshold, and reading gets stuck at the die. -/
theorem completes_open_end
    {inner : Node} {rest : Text}
    (c : Comparator)
    (hrest : AfterTerm rest) :
    CompletesOrSticks (exploded tracer inner ('!' :: c.symbol :: rest) >>=
      fun p => suffixed tracer whole mostSuffixes p.1 p.2)
      (¬CountBehind rest) rest := by
  have hcomparator := comparator_of_symbol c rest
  -- A count behind the plus sign decides how far the threshold reaches.
  by_cases hcount : CountFollows rest
  · obtain ⟨count, after, hdigits, hne, rfl⟩ :=
      exists_digits_of_countFollows hrest hcount
    have hC : ¬¬CountBehind ('+' :: (count ++ 'D' :: after)) :=
      not_not_intro ⟨count, after, hdigits, hne, rfl⟩
    have hstuck : Stuck ('D' :: after) := ⟨after, rfl⟩
    rcases integer_of_count hdigits hne after with ⟨threshold, hthreshold⟩ |
      ⟨fault, hfault⟩
    · refine completes_exploding hcomparator hthreshold fun node => ?_
      rw [suffixed_stuck mostSuffixes hstuck]
      exact reads_stuck node hstuck hC
    · exact completes_exploding_refused hcomparator hfault hC
  · have hthreshold :=
      integer_signed_none (signedEnds_of_not_countFollows hrest hcount)
    refine completes_exploding hcomparator hthreshold fun node => ?_
    rw [suffixed_none mostSuffixes hrest]
    refine reads_pure ?_ trivial
    rintro ⟨count, after, hdigits, hne, rfl⟩
    cases count with
    | nil => exact hne rfl
    | cons c count => exact hcount ⟨c, _, rfl, hdigits c List.mem_cons_self⟩

/-- The suffixes that look like a number with a sign. -/
theorem exists_signed_of_number
    {op : Operator} {s : Text} {n : Nat}
    (hs : Number s n)
    (hop : ¬(op ≠ .add ∧ op ≠ .subtract)) :
    ∃ k, Signed (op.symbol :: s) k := by
  cases op with
  | add => exact ⟨_, .plus hs⟩
  | subtract =>
      have hholds := hs.holds
      refine ⟨_, .minus hs.decimal ?_⟩
      simp only [Limits.Holds, Limits.lowest, Limits.highest] at *
      omega
  | _ => exact absurd (by decide) hop

/-- In front of a suffix, a comparator without threshold may take the sign and
the number of the suffix for its threshold.  Then there is one suffix less to
read, so that reading goes on. -/
theorem completes_open_suffix
    {allowed n : Nat} {id : NodeId} {inner inner' node' : Node} {op : Operator}
    {s t rest : Text}
    (c : Comparator)
    (hs : Number s n)
    (ht : Suffixed tracer' allowed (.arithmetic id tracer' op n inner') t node')
    (hallowed : allowed + 1 ≤ mostSuffixes)
    (hrest : AfterTerm rest) :
    CompletesOrSticks
      (exploded tracer inner
        ('!' :: c.symbol :: op.symbol :: (s ++ (t ++ rest))) >>= fun p =>
          suffixed tracer whole mostSuffixes p.1 p.2) True rest := by
  have hends : TermEnds (t ++ rest) := termEnds_of_suffixed ht hrest.termEnds
  have hcomparator := comparator_of_symbol c (op.symbol :: (s ++ (t ++ rest)))
  -- Only plus and minus can be taken for the sign of a threshold.
  by_cases hop : op ≠ .add ∧ op ≠ .subtract
  · have hthreshold :=
      integer_signed_none (signedEnds_symbol hop (s ++ (t ++ rest)))
    refine completes_exploding hcomparator hthreshold fun node => ?_
    have hread : CompletesOrSticks (suffixed tracer whole mostSuffixes node
        (op.symbol :: (s ++ t) ++ rest)) True rest :=
      completes_suffixed (.suffix id op hs ht) hallowed hrest
    rw [List.cons_append, List.append_assoc] at hread
    exact hread
  · obtain ⟨k, hsigned⟩ := exists_signed_of_number hs hop
    have hthreshold := integer_of_signed hsigned hends.numeralEnds
    refine completes_exploding hcomparator hthreshold fun node => ?_
    exact completes_suffixed ht (Nat.le_of_succ_le hallowed) hrest

theorem completes_exploded
    {inner inner' explosion' node' : Node} {s t rest : Text}
    (hs : Exploded tracer' inner' s explosion')
    (ht : Suffixed tracer' mostSuffixes explosion' t node')
    (hrest : AfterTerm rest) :
    CompletesOrSticks (exploded tracer inner (s ++ (t ++ rest)) >>= fun p =>
      suffixed tracer whole mostSuffixes p.1 p.2)
      (¬Misleads s (t ++ rest)) rest := by
  have hends : TermEnds (t ++ rest) := termEnds_of_suffixed ht hrest.termEnds
  have hsuffixed (hplain : ¬Misleads s (t ++ rest)) (node : Node) :
      CompletesOrSticks (suffixed tracer whole mostSuffixes node (t ++ rest))
        (¬Misleads s (t ++ rest)) rest :=
    (completes_suffixed ht le_rfl hrest).congr (iff_of_true trivial hplain)
      fun _ _ h => h
  cases hs with
  | none =>
      have hmark : ∀ more, t ++ rest ≠ '!' :: more := by
        intro more h
        have hhead := hends '!' (by rw [h]; rfl)
        exact absurd hhead (by decide)
      rw [List.nil_append, exploded_none hmark, pure_bind]
      exact hsuffixed id inner
  | plain =>
      exact completes_exploding (comparator_none hends)
        (integer_unsigned_none hends.numeralEnds)
        (hsuffixed ((plain_nil.cons rfl).not_misleads _))
  | @threshold _ s n hnumber =>
      have hcomparator :
          comparator (s ++ (t ++ rest)) = (none, s ++ (t ++ rest)) := by
        obtain ⟨c, s', rfl⟩ := List.exists_cons_of_ne_nil hnumber.decimal.ne_nil
        rw [List.cons_append, comparator,
          ofSymbol?_of_isDigit (hnumber.decimal.isDigit c List.mem_cons_self)]
      exact completes_exploding hcomparator
        (integer_of_number hnumber hends.numeralEnds)
        (hsuffixed
          (((plain_of_decimal hnumber.decimal).cons rfl).not_misleads _))
  | comparator _ c =>
      have hmisleads :
          Misleads ['!', c.symbol] (t ++ rest) ↔ CountBehind (t ++ rest) := by
        simp only [Misleads, List.nil_append, or_false]
        constructor
        · rintro (⟨⟨c', hc'⟩, -⟩ | ⟨-, h⟩)
          · cases c' <;> cases hc'
          · exact h
        · intro h
          exact Or.inr ⟨⟨c, rfl⟩, h⟩
      rw [hmisleads]
      -- A suffix can be lost to the threshold, and a next term only without
      -- suffixes between.
      cases ht with
      | none => exact completes_open_end c hrest
      | @suffix _ n _ _ s t id op hnumber hmore =>
          have hcount := @not_countBehind_of_suffix op _ _ _ hnumber
            (termEnds_of_suffixed hmore hrest.termEnds)
          have htext : op.symbol :: (s ++ t) ++ rest =
              op.symbol :: (s ++ (t ++ rest)) := by simp
          rw [htext]
          exact (completes_open_suffix c hnumber hmore le_rfl hrest).congr
            (iff_of_true trivial hcount) fun _ _ h => h
  | @compared _ c s n hsigned =>
      refine completes_exploding (comparator_of_symbol c _)
        (integer_of_signed hsigned hends.numeralEnds) (hsuffixed ?_)
      rintro (⟨⟨c', hc'⟩, -⟩ | ⟨-, h⟩ | h)
      · cases c' <;> cases hc'
      · exact not_countBehind_of_signed hsigned hends h
      · exact (plain_of_signed hsigned).not_misleads _ h

/-! ## Expressions -/

/-- What may follow an expression: nothing or a closing parenthesis. -/
inductive AfterExpression : Text → Prop where
  | nil : AfterExpression []
  | close (rest : Text) : AfterExpression (')' :: rest)

theorem AfterExpression.afterTerm {rest : Text} (h : AfterExpression rest) :
    AfterTerm rest := by
  cases h with
  | nil => exact .nil
  | close rest => exact .close rest

theorem groupFirst_of_group
    {most depth : Nat} {s : Text} {node : Node}
    (hs : Group most tracer' depth s node) :
    GroupFirst s := by
  cases hs with
  | @dice _ _ s t _ _ hs _ _ =>
      cases hs with
      | omitted => exact Or.inl ⟨[], t, by simp, rfl⟩
      | number hs _ _ => exact Or.inl ⟨s, t, hs.decimal.isDigit, rfl⟩
  | enclosed _ => exact Or.inr ⟨_, rfl⟩

theorem groupFirst_of_terms
    {most depth : Nat} {s : Text} {nodes : List Node}
    (hs : Terms most tracer' depth s nodes) :
    GroupFirst s := by
  have hterm {s : Text} {node : Node}
      (hs : Grammar.Term most tracer' depth s node) :
      GroupFirst s := by
    cases hs with
    | mk hgroup _ _ _ => exact (groupFirst_of_group hgroup).append _
  cases hs with
  | last hs => exact hterm hs
  | next hs _ => exact (hterm hs).append _

/-- Groups are read in front of what may follow them, unless they mislead the
reader. -/
def CompletesGroups (tracer tracer' : Tracer) (whole : Text)
    (depth : Nat) : Prop :=
  ∀ {s rest : Text} {node : Node},
    Group mostCopies tracer' depth s node → NumeralEnds rest →
      Completes (groupAt tracer whole depth (s ++ rest)) (¬Misleads s rest) rest

/-- Expressions are read in front of what may follow them, unless they mislead
the reader. -/
def CompletesExpressions (tracer tracer' : Tracer) (whole : Text)
    (depth : Nat) : Prop :=
  ∀ {s rest : Text} {node : Node}, Expression mostCopies tracer' depth s node →
    AfterExpression rest →
    CompletesOrSticks (expression tracer whole depth (s ++ rest))
      (¬Misleads s rest) rest

theorem completes_group_of_dice
    {n : Nat} {s t rest : Text} {d : Die}
    (hs : Count mostCopies s n)
    (ht : Sides t d)
    (hrest : NumeralEnds rest)
    (depth : Nat) :
    Completes (groupAt tracer whole depth (s ++ 'D' :: t ++ rest))
      (¬Misleads (s ++ 'D' :: t) rest) rest := by
  have hplain : Plain (s ++ 'D' :: t) :=
    (plain_of_count hs).append ((plain_of_sides ht).cons rfl)
  have hparen : ∀ more, s ++ 'D' :: (t ++ rest) ≠ '(' :: more := by
    intro more h
    cases hs with
    | omitted => cases h
    | number hs _ _ =>
        exact ne_cons_of_digits hs.decimal.isDigit hs.decimal.ne_nil
          (by decide) h
  rw [List.append_assoc, List.cons_append, groupAt_eq_dice tracer whole hparen]
  exact (completes_dice hs ht hrest).congr
    (iff_of_true trivial (hplain.not_misleads rest))
    fun _ _ h => h

theorem completesGroups_innermost : CompletesGroups tracer tracer' whole 0 := by
  intro s rest node hs hrest
  cases hs with
  | dice hcount hsides _ => exact completes_group_of_dice hcount hsides hrest 0

theorem completesGroups_succ
    {depth : Nat}
    (h : CompletesExpressions tracer tracer' whole depth) :
    CompletesGroups tracer tracer' whole (depth + 1) := by
  intro s rest node hs hrest
  cases hs with
  | dice hcount hsides _ =>
      exact completes_group_of_dice hcount hsides hrest (depth + 1)
  | @enclosed _ s _ hs =>
      have htext : '(' :: (s ++ [')']) ++ rest = '(' :: (s ++ ')' :: rest) := by
        simp
      have hmisleads :
          Misleads ('(' :: (s ++ [')'])) rest ↔ Misleads s (')' :: rest) := by
        rw [← List.singleton_append, misleads_plain_append (plain_nil.cons rfl),
          misleads_append_plain (plain_nil.cons rfl)]
        rfl
      rw [htext, groupAt, group]
      refine AcceptsUnless.congr (C := _ ∧ True)
        ((h hs (.close rest)).accepts_bind ?_ ?_)
        (by rw [hmisleads, and_true]) fun _ _ h => h
      · intro _ node _
        dsimp only
        rw [expect_self, scanned_ok, pure_bind]
        exact accepts_pure trivial rfl
      · rintro node r ⟨more, rfl⟩
        exact accepts_throw id

theorem completes_term
    {depth : Nat} {s rest : Text} {node : Node}
    (hgroups : CompletesGroups tracer tracer' whole depth)
    (hs : Grammar.Term mostCopies tracer' depth s node)
    (hrest : AfterTerm rest) :
    CompletesOrSticks (termAt tracer whole depth (s ++ rest))
      (¬Misleads s rest) rest := by
  cases hs with
  | @mk _ s t u v _ _ _ _ hs ht hu hv =>
      have hends : TermEnds (v ++ rest) :=
        termEnds_of_suffixed hv hrest.termEnds
      have hnumeral := numeralEnds_of_exploded hu hends
      have hselection := selectionEnds_of_exploded hu hends
      have hmisleads : Misleads (s ++ (t ++ (u ++ v))) rest ↔
          Misleads s (t ++ (u ++ (v ++ rest))) ∨ Misleads u (v ++ rest) := by
        rw [misleads_append, misleads_plain_append (plain_of_selected ht),
          misleads_append_plain (plain_of_suffixed hv)]
        simp only [List.append_assoc]
      have htext : s ++ (t ++ (u ++ v)) ++ rest =
          s ++ (t ++ (u ++ (v ++ rest))) := by simp
      rw [htext, termAt, term]
      refine ReadsUnless.congr (C := _ ∧ ¬Misleads u (v ++ rest))
        (reads_bind_of_accepts
          (hgroups hs (numeralEnds_of_selected ht hnumeral)) ?_)
        (by rw [hmisleads, not_or]) fun _ _ h => h
      rintro _ ⟨node, _⟩ rfl
      refine (reads_bind_of_accepts
        (completes_selected ht hnumeral hselection) ?_).congr
          (true_and _).to_iff fun _ _ h => h
      rintro _ ⟨node, _⟩ rfl
      exact completes_exploded hu hv hrest

/-- There are fewer terms than characters, so the limit is not reached. -/
theorem completes_terms
    {depth limit : Nat} {s rest : Text} {nodes : List Node}
    (hgroups : CompletesGroups tracer tracer' whole depth)
    (hs : Terms mostCopies tracer' depth s nodes)
    (hlimit : (s ++ rest).length < limit)
    (hrest : AfterExpression rest) :
    CompletesOrSticks (terms (termAt tracer whole depth) limit (s ++ rest))
      (¬Misleads s rest) rest := by
  -- The induction is on the limit, since that is what the reader counts down.
  induction limit generalizing s nodes with
  | zero => cases hlimit
  | succ limit ih =>
      cases hs with
      | last hs =>
          refine (completes_term hgroups hs hrest.afterTerm).andThen ?_ ?_
          · intro _ node _
            cases hrest with
            | nil => exact reads_pure trivial trivial
            | close rest => exact reads_pure trivial trivial
          · rintro node r ⟨more, rfl⟩
            exact reads_stuck [node] ⟨more, rfl⟩ id
      | @next _ s t _ nodes hs ht =>
          have hgroup : GroupFirst (t ++ rest) :=
            (groupFirst_of_terms ht).append rest
          have hmisleads : Misleads (s ++ '+' :: t) rest ↔
              Misleads s ('+' :: (t ++ rest)) ∨ Misleads t rest := by
            rw [misleads_append, ← List.singleton_append (l := t),
              misleads_plain_append (plain_nil.cons rfl)]
            rfl
          have hshorter : (t ++ rest).length < limit := by
            simp only [List.length_append, List.length_cons] at hlimit ⊢
            omega
          rw [List.append_assoc, List.cons_append, terms]
          refine ReadsUnless.congr (C := _ ∧ ¬Misleads t rest)
            ((completes_term hgroups hs (.term hgroup)).bind ?_ ?_)
            (by rw [hmisleads, not_or]) fun _ _ h => h
          · intro _ node _
            change CompletesOrSticks
              (if startsGroup (t ++ rest) = true then _ else _) _ _
            rw [hgroup.startsGroup, if_pos rfl]
            refine (ih ht hshorter).andThen ?_ ?_
            · intro _ others _
              exact reads_pure trivial trivial
            · intro others r hr
              exact reads_stuck _ hr id
          · rintro node r ⟨more, rfl⟩
            exact reads_stuck [node] ⟨more, rfl⟩ id

theorem completes_sum
    {depth : Nat} {s rest : Text} {node : Node}
    (hgroups : CompletesGroups tracer tracer' whole depth)
    (hs : Expression mostCopies tracer' depth s node)
    (hrest : AfterExpression rest) :
    CompletesOrSticks (sum (termAt tracer whole depth) (s ++ rest))
      (¬Misleads s rest) rest := by
  obtain ⟨nodes, hterms⟩ : ∃ nodes, Terms mostCopies tracer' depth s nodes := by
    cases hs with
    | term hs => exact ⟨_, hs⟩
    | sum _ hs _ => exact ⟨_, hs⟩
  refine (completes_terms hgroups hterms
    (Nat.lt_succ_self _) hrest).andThen ?_ ?_
  · intro _ nodes _
    exact reads_of_accepts ((accepts_pooled nodes rest).congr Iff.rfl
      fun _ _ h => ⟨trivial, h.2⟩)
  · intro nodes r hr
    refine reads_stuck_of_accepts ((accepts_pooled nodes r).congr Iff.rfl ?_)
    rintro - p ⟨-, rfl⟩
    exact hr

theorem completesExpressions (depth : Nat) :
    CompletesExpressions tracer tracer' whole depth := by
  intro s rest node hs hrest
  rw [expression_eq]
  induction depth generalizing s rest node with
  | zero => exact completes_sum completesGroups_innermost hs hrest
  | succ depth ih =>
      refine completes_sum (completesGroups_succ ?_) hs hrest
      intro s rest node hs hrest
      rw [expression_eq]
      exact ih hs hrest

/-- A text that does not mislead the reader is read to its end, unless a node is
refused; one that does is refused. -/
theorem accepts_wholeText
    {node : Node}
    (hs : Expression mostCopies tracer' deepestNesting whole node) :
    AcceptsUnless Error.OfNode (wholeText tracer whole) (¬Misleading whole)
      fun _ => True := by
  have hne : whole ≠ [] := by
    cases hs with
    | term hs => exact (groupFirst_of_terms hs).ne_nil
    | sum _ hs _ => exact (groupFirst_of_terms hs).ne_nil
  have hread :
      CompletesOrSticks (expression tracer whole deepestNesting (whole ++ []))
        (¬Misleads whole []) [] :=
    completesExpressions deepestNesting hs .nil
  rw [List.append_nil] at hread
  rw [wholeText, if_neg hne, misleading_iff]
  refine AcceptsUnless.congr (C := _ ∧ True) (hread.accepts_bind ?_ ?_)
    (and_true _).to_iff fun _ _ h => h
  · intro _ node _
    exact accepts_pure trivial trivial
  · rintro node r ⟨more, rfl⟩
    exact accepts_throw id

end Parse

/-- A text that is a dice expression, in upper case and without blanks, is never
refused as a text, unless a comparator stands directly in front of a plus sign
and a die with a written count.  Such a comparator takes the count for its
threshold, and then the text is always refused. -/
theorem parse_of_grammatical
    {tracer' : Tracer} {text : Text} {node : Node}
    (h : Grammar.Expression 1000 tracer' 64 text.normalize node)
    (tracer : Tracer) :
    (¬Grammar.Misleading text.normalize →
      ∀ m e, (parse tracer text).outcome m = .error e → e.kind ≠ .text) ∧
    (Grammar.Misleading text.normalize →
      ∀ m node, (parse tracer text).outcome m ≠ .ok node) := by
  have haccepts : Building.AcceptsUnless Error.OfNode (parse tracer text)
      (¬Grammar.Misleading text.normalize) fun _ => True :=
    Parse.accepts_wholeText h
  refine ⟨?_, ?_⟩
  · intro hreadable m e he
    have hm := haccepts m
    rw [he] at hm
    exact hm hreadable
  · intro hmisleading m node hnode
    have hm := haccepts m
    rw [hnode] at hm
    exact hm.1 hmisleading

/-- An explosion and two dice: the sum of two terms is refused, because the
count of the second is taken for the threshold of the first. -/
theorem not_parsed_count_behind_comparator :
    (∃ node, Grammar.Expression 1000 Tracer.silent 64 "D6!>+2D4".toList node) ∧
      (∀ m node, (parse Tracer.silent "D6!>+2D4".toList).outcome m ≠ .ok node) ∧
      (parse Tracer.silent "D6!>+2D4".toList).outcome Memory.empty =
        .error (.badSyntax (.unexpected "D4".toList "D6!>+2D4".toList)) := by
  have hsix : Grammar.Number ['6'] 6 := ⟨⟨by decide, by simp, rfl⟩, by decide⟩
  have htwo : Grammar.Number ['2'] 2 := ⟨⟨by decide, by simp, rfl⟩, by decide⟩
  have hfour : Grammar.Number ['4'] 4 := ⟨⟨by decide, by simp, rfl⟩, by decide⟩
  have hfirst : Grammar.Term 1000 Tracer.silent 64 "D6!>".toList
      (.explode 1 Tracer.silent .greater none (.die 0 (.sided 6))) :=
    .mk (s := ['D', '6'])
      (.dice .omitted (.number hsix (by decide)) (.single 0))
      .none (.comparator 1 .greater) (.none 2 _)
  have hsecond : Grammar.Term 1000 Tracer.silent 64 "2D4".toList
      (.pool 4 [.die 2 (.sided 4), .die 3 (.sided 4)]) :=
    .mk (s := ['2', 'D', '4'])
      (.dice (.number htwo (by decide) (by decide)) (.number hfour (by decide))
        (@Grammar.Copies.several _ 4 [2, 3] (by decide)))
      .none .none (.none 2 _)
  have hsum : Grammar.Expression 1000 Tracer.silent 64 "D6!>+2D4".toList _ :=
    .sum 5 (.next hfirst (.last hsecond)) (by decide)
  have hmisleading : Grammar.Misleading "D6!>+2D4".toList :=
    ⟨"D6!".toList, .greater, "+2D4".toList, rfl, ['2'], ['4'],
      by simp, by decide, rfl⟩
  refine ⟨⟨_, hsum⟩, ?_, by cbv⟩
  exact (@parse_of_grammatical _ "D6!>+2D4".toList _ hsum Tracer.silent).2
    hmisleading

end DiceNotation
