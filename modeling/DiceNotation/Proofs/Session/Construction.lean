import DiceNotation.Proofs.Parse.Reads
import DiceNotation.Proofs.Session.Silence

/-!
# Silent construction

Building nodes with silent tracers, from silenced nodes, succeeds exactly if
building them with any tracers does: it gives the silenced node, or it is
refused for the same cause.  The same holds of reading texts.
-/

namespace DiceNotation

/-- The second node is the first one with silent tracers. -/
abbrev Node.IsSilenced (node quiet : Node) : Prop :=
  node.silenced = quiet

/-- The second building does with an empty journal what the first one does with
any, and gives a corresponding result or is refused for the same cause. -/
abbrev Building.Silences {α β : Type} (R : α → β → Prop) (x : Building α)
    (y : Building β) : Prop :=
  MatchesOrFails (fun m n => m.silenced = n) R x y

namespace Build

open Building Node

theorem silences_newNode : Silences Eq newNode newNode :=
  .lift Memory.silences_newNode

theorem silences_die (d : Die) : Silences IsSilenced (die d) (die d) :=
  silences_newNode.bind_eq fun _ => .pure rfl

/-- An item is missing if and only if it is missing among the silenced items. -/
theorem mapM_silenced (items : List (Option Node)) :
    (items.map (Option.map silenced)).mapM id =
      (items.mapM id).map (List.map silenced) := by
  induction items with
  | nil => rfl
  | cons item rest ih =>
      rw [List.map_cons, List.mapM_cons, List.mapM_cons, ih]
      cases item with
      | none => rfl
      | some item => cases rest.mapM id <;> rfl

theorem silences_pool (items : List (Option Node)) :
    Silences IsSilenced (pool items)
      (pool (items.map (Option.map silenced))) := by
  rw [pool, pool, mapM_silenced]
  cases items.mapM id with
  | none => exact .throw _
  | some items =>
      exact silences_newNode.bind_eq fun id => .pure (silenced_pool id items)

theorem silences_copy (node : Node) :
    Evaluation.Silences IsSilenced (copy node) (copy node.silenced) := by
  rw [copy, copy, id_silenced]
  exact (Memory.silences_copyNode node.id).bind_eq fun id =>
    .pure (withId_silenced id node)

theorem silences_copies (node : Node) (n : Nat) :
    Evaluation.Silences (fun nodes quiets => nodes.map silenced = quiets)
      (copies node n) (copies node.silenced n) := by
  induction n with
  | zero => exact .pure rfl
  | succ n ih =>
      rw [copies, copies]
      refine (silences_copy node).bind ?_
      rintro first _ rfl
      refine ih.bind ?_
      rintro rest _ rfl
      exact .pure rfl

theorem silences_repeated (node : Node) (count : Int) :
    Silences IsSilenced (repeated node count)
      (repeated node.silenced count) := by
  unfold repeated
  split
  · exact .throw _
  · split
    · exact .throw _
    · refine (MatchesOrFails.lift (silences_copies node count.toNat)).bind ?_
      rintro items _ rfl
      exact silences_newNode.bind_eq fun id => .pure (silenced_pool id items)

theorem silences_arithmetic
    (inner : Option Node) (op : Operator) (operand : Int) (tracer : Tracer) :
    Silences IsSilenced (arithmetic inner op operand tracer)
      (arithmetic (inner.map silenced) op operand Tracer.silent) := by
  cases inner with
  | none => exact .throw _
  | some inner =>
      dsimp only [arithmetic, Option.map_some]
      split
      · exact .throw _
      · split
        · exact .throw _
        · exact silences_newNode.bind_eq fun _ => .pure rfl

theorem silences_dropKeep
    (inner : Option Node) (selection : Selection)
    (threshold : Int) (tracer : Tracer) :
    Silences IsSilenced (dropKeep inner selection threshold tracer)
      (dropKeep (inner.map silenced) selection threshold Tracer.silent) := by
  cases inner with
  | none => exact .throw _
  | some inner =>
      dsimp only [dropKeep, Option.map_some]
      simp only [members_silenced, List.map_eq_nil_iff, List.length_map,
        render_silenced]
      split
      · exact .throw _
      · split
        · exact .throw _
        · split
          · exact .throw _
          · exact silences_newNode.bind_eq fun _ => .pure rfl

theorem silences_requireExactBounds (members : List Node) :
    Silences Eq (requireExactBounds members)
      (requireExactBounds (members.map silenced)) := by
  induction members with
  | nil => exact .pure rfl
  | cons member rest ih =>
      rw [List.map_cons, requireExactBounds, requireExactBounds,
        render_silenced]
      refine (MatchesOrFails.lift
        (silences_hasExactBounds member)).bind_eq fun exact => ?_
      cases exact with
      | true => exact ih
      | false => exact .throw _

theorem silences_requireEnd
    (comparator : Comparator) (threshold : Option Int)
    (node : Node) (text : Text) :
    Silences Eq (requireEnd comparator threshold node text)
      (requireEnd comparator threshold node.silenced text) := by
  unfold requireEnd
  refine (MatchesOrFails.lift
    (silences_bound node .least)).bind_eq fun low => ?_
  refine (MatchesOrFails.lift
    (silences_bound node .greatest)).bind_eq fun high => ?_
  dsimp only
  split
  · exact .throw _
  · exact .pure rfl

theorem silences_requireEnds
    (comparator : Comparator) (threshold : Option Int) (members : List Node) :
    Silences Eq (requireEnds comparator threshold members)
      (requireEnds comparator threshold (members.map silenced)) := by
  induction members with
  | nil => exact .pure rfl
  | cons member rest ih =>
      rw [List.map_cons, requireEnds, requireEnds, render_silenced]
      exact (silences_requireEnd comparator threshold
        member member.render).bind_eq fun _ => ih

theorem silences_explode
    (inner : Option Node) (comparator : Comparator) (threshold : Option Int)
    (tracer : Tracer) :
    Silences IsSilenced (explode inner comparator threshold tracer)
      (explode (inner.map silenced) comparator threshold Tracer.silent) := by
  cases inner with
  | none => exact .throw _
  | some inner =>
      dsimp only [explode, Option.map_some]
      simp only [members_silenced, List.map_eq_nil_iff]
      split
      · exact .throw _
      · refine silences_newNode.bind_eq fun id => ?_
        have hrender :
            (Node.explode id Tracer.silent comparator threshold
                inner.silenced).render =
              (Node.explode id tracer comparator threshold inner).render :=
          render_silenced (.explode id tracer comparator threshold inner)
        rw [hrender]
        exact (silences_requireExactBounds _).bind_eq fun _ =>
          (silences_requireEnd _ _ _ _).bind_eq fun _ =>
            (silences_requireEnds _ _ _).bind_eq fun _ => .pure rfl

theorem silences_wrapInPool (inner : Option Node) :
    Silences IsSilenced (wrapInPool inner)
      (wrapInPool (inner.map silenced)) := by
  cases inner with
  | none => exact .throw _
  | some inner =>
      cases inner with
      | pool id items =>
          rw [Option.map_some, silenced_pool]
          exact .pure (silenced_pool id items)
      | _ => exact silences_newNode.bind_eq fun id => .pure (silenced_pool id _)

theorem silences_retrace (node : Node) (tracer : Tracer) :
    Evaluation.Silences (fun found quiet => found.map silenced = quiet)
      (retrace node tracer) (retrace node.silenced Tracer.silent) :=
  Memory.silences_newNode.bind_eq fun id =>
    .pure (retraced?_silenced id tracer node)

end Build

/-! ## Reading -/

namespace Parse

open Building Node

/-- The second reader returns the silenced nodes of the first one, in front of
the same rests, or is refused for the same causes. -/
def SilencesReader (x y : Reader Node) : Prop :=
  ∀ s, Silences (fun p q => (p.1.silenced, p.2) = q) (x s) (y s)

theorem silences_scanned {α : Type} (r : Except SyntaxFault α) :
    Silences Eq (scanned r) (scanned r) := by
  cases r with
  | ok a => exact .pure rfl
  | error fault => exact .throw _

/-- What is built last is returned in front of the rest. -/
theorem silences_built
    {x y : Building Node}
    (h : Silences IsSilenced x y)
    (rest : Text) :
    Silences (fun p q => (p.1.silenced, p.2) = q)
      (x >>= fun node => pure (node, rest))
      (y >>= fun node => pure (node, rest)) := by
  refine h.bind ?_
  rintro node _ rfl
  exact .pure rfl

variable {tracer : Tracer} {whole : Text}

theorem silencesReader_dice : SilencesReader (dice whole) (dice whole) := by
  intro s
  refine (silences_scanned (countedDie whole s)).bind_eq ?_
  rintro ⟨⟨n, d⟩, rest⟩
  refine (Build.silences_die d).bind ?_
  rintro node _ rfl
  split
  · exact .pure rfl
  · exact silences_built (Build.silences_repeated node n) rest

theorem silencesReader_group
    {inner : Reader Node} {quiet : Reader Node}
    (h : SilencesReader inner quiet) :
    SilencesReader (group whole (some inner)) (group whole (some quiet)) := by
  intro s
  by_cases hs : ∃ more, s = '(' :: more
  · obtain ⟨more, rfl⟩ := hs
    refine (h more).bind ?_
    rintro ⟨node, rest⟩ _ rfl
    exact (silences_scanned _).bind_eq fun _ => .pure rfl
  · have hdice : ∀ more, s ≠ '(' :: more := fun more h => hs ⟨more, h⟩
    rw [group_eq_dice whole hdice, group_eq_dice whole hdice]
    exact silencesReader_dice s

theorem silencesReader_innermost :
    SilencesReader (group whole none) (group whole none) := by
  intro s
  by_cases hs : ∃ more, s = '(' :: more
  · obtain ⟨more, rfl⟩ := hs
    exact .throw _
  · have hdice : ∀ more, s ≠ '(' :: more := fun more h => hs ⟨more, h⟩
    rw [group_eq_dice whole hdice]
    exact silencesReader_dice s

theorem silencesReader_selected (node : Node) :
    SilencesReader (selected tracer node)
      (selected Tracer.silent node.silenced) := by
  intro s
  refine (silences_scanned (selection s)).bind_eq ?_
  rintro ⟨selection?, rest⟩
  cases selection? with
  | none => exact .pure rfl
  | some selection =>
      exact (silences_scanned _).bind_eq fun p =>
        silences_built (Build.silences_dropKeep
          (some node) selection _ tracer) _

theorem silencesReader_exploded (node : Node) :
    SilencesReader (exploded tracer node)
      (exploded Tracer.silent node.silenced) := by
  intro s
  by_cases hs : ∃ more, s = '!' :: more
  · obtain ⟨more, rfl⟩ := hs
    exact (silences_scanned _).bind_eq fun p =>
      silences_built (Build.silences_explode (some node) _ _ tracer) _
  · have hmark : ∀ more, s ≠ '!' :: more := fun more h => hs ⟨more, h⟩
    rw [exploded_none hmark, exploded_none hmark]
    exact .pure rfl

theorem silencesReader_suffixed (allowed : Nat) (node : Node) :
    SilencesReader (suffixed tracer whole allowed node)
      (suffixed Tracer.silent whole allowed node.silenced) := by
  induction allowed generalizing node with
  | zero =>
      intro s
      rw [suffixed, suffixed]
      refine (silences_scanned (suffix whole s)).bind_eq ?_
      rintro ⟨_ | ⟨op, n⟩, rest⟩
      · exact .pure rfl
      · exact .throw _
  | succ allowed ih =>
      intro s
      rw [suffixed, suffixed]
      refine (silences_scanned (suffix whole s)).bind_eq ?_
      rintro ⟨_ | ⟨op, n⟩, rest⟩
      · exact .pure rfl
      · refine (Build.silences_arithmetic (some node) op n tracer).bind ?_
        rintro node _ rfl
        exact ih node rest

theorem silencesReader_term
    {x y : Reader Node}
    (h : SilencesReader x y) :
    SilencesReader (term tracer whole x) (term Tracer.silent whole y) := by
  intro s
  refine (h s).bind ?_
  rintro ⟨node, rest⟩ _ rfl
  refine (silencesReader_selected node rest).bind ?_
  rintro ⟨node, rest⟩ _ rfl
  refine (silencesReader_exploded node rest).bind ?_
  rintro ⟨node, rest⟩ _ rfl
  exact silencesReader_suffixed mostSuffixes node rest

theorem silences_terms
    {x y : Reader Node}
    (h : SilencesReader x y)
    (limit : Nat) (s : Text) :
    Silences (fun p q => (p.1.map silenced, p.2) = q) (terms x limit s)
      (terms y limit s) := by
  induction limit generalizing s with
  | zero => exact .pure rfl
  | succ limit ih =>
      refine (h s).bind ?_
      rintro ⟨node, rest⟩ _ rfl
      dsimp only
      split
      · split
        · refine (ih _).bind ?_
          rintro ⟨others, rest⟩ _ rfl
          exact .pure rfl
        · exact .pure rfl
      · exact .pure rfl

theorem silencesReader_sum
    {x y : Reader Node}
    (h : SilencesReader x y) :
    SilencesReader (sum x) (sum y) := by
  intro s
  refine (silences_terms h _ s).bind ?_
  rintro ⟨nodes, rest⟩ _ rfl
  have hpool (nodes : List Node) :
      Silences (fun p q => (p.1.silenced, p.2) = q)
        (Build.pool (nodes.map some) >>= fun node => pure (node, rest))
        (Build.pool ((nodes.map silenced).map some) >>=
          fun node => pure (node, rest)) := by
    have hquiet : (nodes.map silenced).map some =
        (nodes.map some).map (Option.map silenced) := by
      simp only [List.map_map, Function.comp_def, Option.map_some]
    rw [hquiet]
    exact silences_built (Build.silences_pool _) rest
  match nodes with
  | [node] => exact .pure rfl
  | [] => exact hpool []
  | first :: second :: others => exact hpool (first :: second :: others)

theorem silencesReader_expression (depth : Nat) :
    SilencesReader (expression tracer whole depth)
      (expression Tracer.silent whole depth) := by
  induction depth with
  | zero =>
      exact silencesReader_sum (silencesReader_term silencesReader_innermost)
  | succ depth ih =>
      exact silencesReader_sum (silencesReader_term (silencesReader_group ih))

end Parse

/-- A text that is read with a tracer is read alike without one. -/
theorem silences_parse (tracer : Tracer) (text : Text) :
    Building.Silences Node.IsSilenced (parse tracer text)
      (parse Tracer.silent text) := by
  rw [parse, parse, Parse.wholeText, Parse.wholeText]
  split
  · exact .throw _
  · refine (Parse.silencesReader_expression deepestNesting
      text.normalize).bind ?_
    rintro ⟨node, rest⟩ _ rfl
    dsimp only
    split
    · exact .pure rfl
    · exact .throw _

end DiceNotation
