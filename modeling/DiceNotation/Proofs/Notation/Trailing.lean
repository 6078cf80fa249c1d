import DiceNotation.Proofs.Grammar.Derivation
import DiceNotation.Proofs.Notation.Shapes

/-!
# Suffixes at the end of written nodes

How many arithmetic suffixes a written node ends with, and why a part that ends
with more than two of them makes the whole text underivable: reading the text
from left to right, there is no room for the last one, whatever stands in front
of the part and behind it.
-/

namespace DiceNotation

open Grammar

namespace Node

/-! ## Suffixes at the end -/

/-- The written node ends with a comparator, so that a number with a sign behind
it would be the threshold. -/
def endsOpen : Node → Bool
  | explode _ _ comparator none _ => comparator ≠ .equal
  | pool _ [item] => item.endsOpen
  | _ => false

/-- The number of arithmetic suffixes that the written node ends with, outside
of parentheses.  What can be read as a threshold is no suffix. -/
def trailing : Node → Nat
  | arithmetic _ _ op _ inner =>
      if inner.binding = .sum ∨ 2 ≤ inner.chainLength then
        1
      else if inner.endsOpen = true ∧ (op = .add ∨ op = .subtract) then
        0
      else
        inner.trailing + 1
  | pool _ [item] => item.trailing
  | _ => 0

theorem render_pool_singleton
    {item : Node}
    (h : item.render ≠ [])
    (id : NodeId) :
    (pool id [item]).render = item.render := by
  rw [render_pool (List.forall_mem_singleton.mpr h)]
  exact List.intercalate_singleton

theorem render_explode
    (id : NodeId) (tracer : Tracer) (comparator : Comparator)
    (threshold : Option Int) (inner : Node) :
    (explode id tracer comparator threshold inner).render =
      encloseAt .explode inner.binding inner.render ++
        '!' :: spelling comparator threshold := by
  cases threshold <;> rw [render] <;> rfl

/-- Only a node with a suffix at its end has any. -/
theorem binding_of_trailing_pos
    {node : Node}
    (h : 0 < node.trailing) :
    node.binding = .arithmetic ∧ node.endsOpen = false := by
  induction node using induction_members with
  | arithmetic => exact ⟨rfl, rfl⟩
  | pool id items ih =>
      match items with
      | [item] => exact ih item (List.mem_singleton_self item) h
      | [] | _ :: _ :: _ => exact absurd h (lt_irrefl 0)
  | die | dropKeep | explode => exact absurd h (lt_irrefl 0)

end Node

/-! ## Room for suffixes -/

namespace Grammar

open Parse

/-- The text does not go on with a numeral or a group. -/
def Detached (rest : Text) : Prop :=
  ∀ c ∈ rest.head?, c.isDigit = false ∧ c ≠ 'D' ∧ c ≠ '('

theorem detached_nil : Detached [] := by
  rintro c ⟨⟩

theorem detached_cons
    {c : Char}
    (h : c.isDigit = false ∧ c ≠ 'D' ∧ c ≠ '(')
    (rest : Text) :
    Detached (c :: rest) := by
  rintro d ⟨⟩
  exact h

theorem detached_symbol (op : Operator) (rest : Text) :
    Detached (op.symbol :: rest) :=
  detached_cons (by cases op <;> decide) rest

variable {rest : Text}

theorem startsGroup_of_detached
    {digits : Text}
    (hdigits : ∀ c ∈ digits, c.isDigit = true)
    (hrest : Detached rest) :
    startsGroup (digits ++ rest) = false := by
  have hends : NumeralEnds rest := fun c hc => (hrest c hc).1
  rw [startsGroup, splitDigits_of_digits hdigits hends]
  cases rest with
  | nil => rfl
  | cons c rest =>
      obtain ⟨-, hD, hparen⟩ := hrest c rfl
      dsimp only
      split
      · rename_i heq
        cases heq
        exact absurd rfl hD
      · rename_i heq
        cases heq
        exact absurd rfl hparen
      · rfl

/-- A text that is crowded wherever it is reached stays so behind any text. -/
theorem crowded_append_of_forall
    (h : ∀ room, crowded room rest = true)
    (s : Text) (room : Nat) :
    crowded room (s ++ rest) = true := by
  induction s generalizing room with
  | nil => exact h room
  | cons c s ih =>
      rw [List.cons_append, crowded]
      split
      · exact ih room
      · split
        · rw [ih, Bool.or_true]
        · split <;> exact ih _

section Written

variable (n : Nat) (hrest : Detached rest)
include hrest

/-- A written suffix takes room. -/
theorem crowded_suffix (op : Operator) (room : Nat) :
    crowded room (op.symbol :: (numeral n ++ rest)) =
      (room = 0 || crowded (room - 1) rest) := by
  have hgroup : startsGroup (numeral n ++ rest) = false :=
    startsGroup_of_detached (isDigit_numeral n) hrest
  rw [crowded_symbol op hgroup, crowded_digits (isDigit_numeral n)]

/-- A number with a sign behind a comparator takes no room. -/
theorem crowded_signed_threshold
    {op : Operator}
    (hop : op = .add ∨ op = .subtract)
    (c : Comparator) (room : Nat) :
    crowded room (c.symbol :: op.symbol :: (numeral n ++ rest)) =
      crowded 2 rest := by
  have hsign : signFirst (op.symbol :: (numeral n ++ rest)) = true := by
    rcases hop with rfl | rfl <;> rfl
  rw [crowded_comparator, hsign, if_pos rfl, crowded_suffix n hrest]
  rfl

end Written

/-- Nor does a written threshold. -/
theorem crowded_threshold
    (hrest : Detached rest)
    (c : Comparator) (t : Int) (room : Nat) :
    crowded room (c.symbol :: (numeral t ++ rest)) = crowded 2 rest := by
  cases t with
  | negSucc n =>
      have hminus : Operator.subtract = .add ∨ Operator.subtract = .subtract :=
        Or.inr rfl
      exact crowded_signed_threshold (n + 1) hrest hminus c room
  | ofNat n =>
      have hdigits : ∀ d ∈ numeral n, d.isDigit = true := isDigit_numeral n
      have hsign : signFirst (numeral n ++ rest) = false := by
        cases hnumeral : numeral n with
        | nil => exact absurd hnumeral (Numeral.numeral_ne_nil n)
        | cons d digits =>
            have hd : d.isDigit = true :=
              hdigits d (by rw [hnumeral]; exact .head _)
            rw [List.cons_append, signFirst, Bool.or_eq_false_iff,
              decide_eq_false_iff_not, decide_eq_false_iff_not]
            constructor <;> rintro rfl <;> cases hd
      change crowded room (c.symbol :: (numeral n ++ rest)) = _
      rw [crowded_comparator, hsign, crowded_digits hdigits]
      rfl

/-- Behind so many suffixes, there is one too many, here or in the text that
follows. -/
def Overfull (count : Nat) (rest : Text) : Prop :=
  2 < count ∨ crowded (2 - count) rest = true

theorem Overfull.crowded (h : Overfull 0 rest) : crowded 2 rest = true :=
  h.resolve_left (by decide)

theorem Overfull.suffix
    {count : Nat}
    (h : Overfull (count + 1) rest)
    (hrest : Detached rest)
    (op : Operator) (n : Nat) :
    Overfull count (op.symbol :: (numeral n ++ rest)) := by
  by_cases hcount : 2 < count
  · exact Or.inl hcount
  · refine Or.inr ?_
    rw [crowded_suffix n hrest, Bool.or_eq_true, decide_eq_true_eq]
    refine h.imp (by omega) ?_
    intro h
    rwa [Nat.sub_sub]

/-- Behind a die, there is room for all suffixes. -/
theorem crowded_render_die
    (h : crowded 2 rest = true)
    (d : Die) (room : Nat) :
    crowded room (d.render ++ rest) = true := by
  cases d with
  | sided n =>
      rw [Die.render, List.cons_append, crowded_plain rfl rfl rfl,
        crowded_digits (isDigit_numeral n), h]
  | custom faces =>
      rw [Die.render, List.append_assoc]
      refine crowded_append_of_forall (fun room => ?_) _ room
      rw [List.singleton_append, crowded_plain rfl rfl rfl, h]
  | fudge =>
      rw [Die.render, List.cons_append, List.singleton_append,
        crowded_plain rfl rfl rfl, crowded_plain rfl rfl rfl, h]

theorem crowded_dice
    (h : crowded 2 rest = true)
    (count : Nat) (d : Die) (room : Nat) :
    crowded room ((Term.dice count d).text ++ rest) = true := by
  rw [Term.dice]
  dsimp only
  rw [Summand.counted]
  split
  · rw [List.append_assoc, crowded_digits (isDigit_numeral count)]
    exact crowded_render_die h d room
  · exact crowded_render_die h d room

theorem crowded_parenthesize
    (h : crowded 2 rest = true)
    (s : Text) (room : Nat) :
    crowded room (Text.parenthesize s ++ rest) = true := by
  rw [Text.parenthesize, List.append_assoc]
  refine crowded_append_of_forall (fun room => ?_) _ room
  rw [List.singleton_append, crowded_plain rfl rfl rfl, h]

end Grammar

namespace Node

/-! ## Room behind written nodes -/

/-- A comparator at the end is the last character. -/
theorem exists_render_eq_of_endsOpen
    {node : Node}
    (hfilled : node.Filled)
    (hopen : node.endsOpen = true) :
    ∃ (s : Text) (c : Comparator), node.render = s ++ [c.symbol] := by
  induction hfilled with
  | die | arithmetic | dropKeep => cases hopen
  | @pool id items hitems _ ih =>
      match items with
      | [item] =>
          obtain ⟨s, c, hrender⟩ := ih item (List.mem_singleton_self item) hopen
          have hne : item.render ≠ [] :=
            (hitems item (List.mem_singleton_self
              item)).writtenAsTerms.groupFirst_render.ne_nil
          exact ⟨s, c, (render_pool_singleton hne id).trans hrender⟩
      | [] | _ :: _ :: _ => cases hopen
  | @explode id tracer comparator threshold inner =>
      cases threshold with
      | some t => cases hopen
      | none =>
          have hcomparator : comparator ≠ .equal := of_decide_eq_true hopen
          refine ⟨encloseAt .explode inner.binding inner.render ++ ['!'],
            comparator, ?_⟩
          rw [render, if_neg hcomparator, List.append_assoc]
          rfl

/-- Several items that are written as a group are the same die. -/
theorem exists_render_eq_dice
    {id : NodeId} {items : List Node}
    (hfilled : (pool id items).Filled)
    (hlength : 2 ≤ items.length)
    (hgroup : (pool id items).binding = .group) :
    ∃ d, (∀ item ∈ items, item.die? = some d) ∧
      (pool id items).terms = [Term.dice items.length d] ∧
      (pool id items).render = (Term.dice items.length d).text := by
  obtain ⟨d, hdice⟩ := (binding_pool_eq_group_iff hlength).mp hgroup
  have hne : items ≠ [] := List.ne_nil_of_length_pos (by omega)
  have hterms : (pool id items).terms = [Term.dice items.length d] :=
    terms_of_same hne hdice
  exact ⟨d, hdice, hterms, (hfilled.writtenAsTerms.text_eq_render hterms).symm⟩

/-- The suffixes that the written node ends with take their room from the text
that follows. -/
def TakesRoom (node : Node) : Prop :=
  ∀ ⦃rest : Text⦄,
    Detached rest → (node.endsOpen = true → signFirst rest = false) →
      Overfull node.trailing rest → ∀ room,
        crowded room (node.render ++ rest) = true

theorem takesRoom_die (id : NodeId) (d : Die) : TakesRoom (die id d) := by
  intro rest _ _ h room
  exact crowded_render_die (Overfull.crowded h) d room

theorem takesRoom_pool
    {id : NodeId} {items : List Node}
    (hfilled : (pool id items).Filled)
    (hsum : (pool id items).binding ≠ .sum)
    (hitems : ∀ item ∈ items, item.binding ≠ .sum → TakesRoom item) :
    TakesRoom (pool id items) := by
  match items with
  | [] =>
      cases hfilled with
      | pool _ hne => exact absurd rfl hne
  | [item] =>
      have hitem : item.Filled := by
        cases hfilled with
        | pool hitems _ => exact hitems item (.head _)
      intro rest hrest hopen h room
      rw [render_pool_singleton hitem.writtenAsTerms.groupFirst_render.ne_nil]
      exact hitems item (.head _) hsum hrest hopen h room
  | first :: second :: more =>
      have hlength : 2 ≤ (first :: second :: more).length := Nat.le_add_left _ _
      obtain ⟨d, -, -, hrender⟩ := exists_render_eq_dice hfilled hlength
        ((binding_pool hlength).resolve_right hsum)
      intro rest _ _ h room
      rw [hrender]
      exact crowded_dice (Overfull.crowded h) _ d room

/-- A suffix stands behind parentheses, behind a comparator, which takes it for
a threshold, or behind the suffixes of the inner node. -/
theorem takesRoom_arithmetic
    {id : NodeId} {tracer : Tracer} {op : Operator}
    {operand : Nat} {inner : Node}
    (hfilled : inner.Filled)
    (hinner : inner.binding ≠ .sum → TakesRoom inner) :
    TakesRoom (arithmetic id tracer op operand inner) := by
  intro rest hrest _ h room
  rw [trailing] at h
  rw [render, List.append_assoc, List.cons_append]
  by_cases henclosed : inner.binding = .sum ∨ 2 ≤ inner.chainLength
  · rw [if_pos henclosed] at h ⊢
    exact crowded_parenthesize (h.suffix hrest op operand).crowded _ room
  · rw [if_neg henclosed] at h ⊢
    rw [not_or] at henclosed
    by_cases hthreshold : inner.endsOpen = true ∧ (op = .add ∨ op = .subtract)
    · rw [if_pos hthreshold] at h
      obtain ⟨s, c, hrender⟩ :=
        exists_render_eq_of_endsOpen hfilled hthreshold.1
      rw [hrender, List.append_assoc]
      refine crowded_append_of_forall (fun room => ?_) s room
      exact (crowded_signed_threshold operand hrest hthreshold.2 c room).trans
        h.crowded
    · rw [if_neg hthreshold] at h
      have hopen : inner.endsOpen = true →
          signFirst (op.symbol :: (numeral operand ++ rest)) = false := by
        intro hend
        cases op with
        | add => exact absurd ⟨hend, Or.inl rfl⟩ hthreshold
        | subtract => exact absurd ⟨hend, Or.inr rfl⟩ hthreshold
        | _ => rfl
      exact hinner henclosed.1 (detached_symbol op _) hopen
        (h.suffix hrest op operand) room

theorem takesRoom_dropKeep
    (id : NodeId) (tracer : Tracer) (selection : Selection)
    (threshold : Nat) (inner : Node) :
    TakesRoom (dropKeep id tracer selection threshold inner) := by
  intro rest _ _ h room
  rw [render, List.append_assoc, List.append_assoc]
  refine crowded_append_of_forall (fun room => ?_) _ room
  rw [crowded_code, crowded_digits (Parse.isDigit_numeral threshold),
    Overfull.crowded h]

theorem takesRoom_explode
    (id : NodeId) (tracer : Tracer) (comparator : Comparator)
    (threshold : Option Int) (inner : Node) :
    TakesRoom (explode id tracer comparator threshold inner) := by
  intro rest hrest hopen h room
  have hroom : crowded 2 rest = true := Overfull.crowded h
  rw [render_explode, List.append_assoc, List.cons_append]
  refine crowded_append_of_forall (fun room => ?_) _ room
  rw [crowded_plain rfl rfl rfl]
  cases threshold with
  | some t => exact (crowded_threshold hrest comparator t 2).trans hroom
  | none =>
      rw [spelling]
      split
      · exact hroom
      · rename_i hcomparator
        rw [List.singleton_append, crowded_comparator,
          hopen (decide_eq_true hcomparator)]
        exact hroom

theorem takesRoom
    {node : Node}
    (hfilled : node.Filled)
    (hsum : node.binding ≠ .sum) :
    TakesRoom node := by
  induction hfilled with
  | die id d => exact takesRoom_die id d
  | pool hitems hne ih => exact takesRoom_pool (.pool hitems hne) hsum ih
  | arithmetic hinner ih => exact takesRoom_arithmetic hinner ih
  | dropKeep => exact takesRoom_dropKeep _ _ _ _ _
  | explode => exact takesRoom_explode _ _ _ _ _

/-! ## Parts inside of nodes -/

theorem Filled.child
    {child node : Node}
    (h : node.Filled)
    (hchild : child ∈ node.children) :
    child.Filled := by
  cases h with
  | die => exact absurd hchild List.not_mem_nil
  | pool hitems _ => exact hitems child hchild
  | arithmetic hinner | dropKeep hinner | explode hinner =>
      rwa [List.mem_singleton.mp hchild]

/-- Only dice and pools are parts of a group. -/
theorem binding_eq_group_of_child
    {child node : Node}
    (hchild : child ∈ node.children)
    (hgroup : node.binding = .group) :
    child.binding = .group := by
  cases node with
  | die => exact absurd hchild List.not_mem_nil
  | arithmetic | dropKeep | explode => cases hgroup
  | pool id items =>
      match items with
      | [] => exact absurd hchild List.not_mem_nil
      | [item] =>
          rw [List.mem_singleton.mp hchild]
          exact hgroup
      | first :: second :: rest =>
          have hlength : 2 ≤ (first :: second :: rest).length :=
            Nat.le_add_left _ _
          obtain ⟨d, hdice⟩ := (binding_pool_eq_group_iff hlength).mp hgroup
          obtain ⟨id', rfl⟩ := eq_die_of_mem_die? (hdice child hchild)
          rfl

/-- A text among texts with plus signs between them. -/
theorem exists_intercalate_eq_of_mem
    {texts : List Text} {s : Text}
    (hs : s ∈ texts) :
    ∃ before after, ['+'].intercalate texts = before ++ (s ++ after) ∧
      (after = [] ∨ ∃ more, after = '+' :: more) := by
  induction texts with
  | nil => exact absurd hs List.not_mem_nil
  | cons t texts ih =>
      cases texts with
      | nil =>
          refine ⟨[], [], ?_, Or.inl rfl⟩
          rw [List.mem_singleton.mp hs, List.intercalate_singleton,
            List.append_nil]
          rfl
      | cons t' texts =>
          rw [List.intercalate_cons_cons, List.append_assoc]
          rcases List.mem_cons.mp hs with rfl | hs
          · exact ⟨[], _, rfl, Or.inr ⟨_, rfl⟩⟩
          · obtain ⟨before, after, heq, hafter⟩ := ih hs
            refine ⟨t ++ (['+'] ++ before), after, ?_, hafter⟩
            rw [heq, List.append_assoc, List.append_assoc]

/-- What is no die keeps its own text in a sum. -/
theorem text_mem_collapseAfter
    {first summand : Summand} {count : Nat} {rest : List Summand}
    (hcount : first.die = none → count = 1)
    (hmem : summand ∈ first :: rest)
    (hsummand : summand.die = none) :
    summand.text ∈ Summand.collapseAfter first count rest := by
  induction rest generalizing first count with
  | nil =>
      rw [List.mem_singleton.mp hmem] at hsummand ⊢
      rw [Summand.collapseAfter, hcount hsummand]
      exact .head _
  | cons next rest ih =>
      rw [Summand.collapseAfter]
      rcases List.mem_cons.mp hmem with rfl | hrest
      · rw [hsummand, hcount hsummand]
        exact .head _
      · split
        · rename_i hsame
          rw [Bool.and_eq_true, decide_eq_true_eq] at hsame
          have hfirst : first.die ≠ none := Option.isSome_iff_ne_none.mp hsame.1
          rcases List.mem_cons.mp hrest with rfl | hrest
          · exact absurd (hsame.2.symm.trans hsummand) hfirst
          · exact ih (fun h => absurd h hfirst) (.tail _ hrest)
        · exact .tail _ (ih (fun _ => rfl) hrest)

theorem exists_render_pool_eq
    {items : List Node} {item : Node}
    (hitems : ∀ item ∈ items, item.Filled)
    (hitem : item ∈ items)
    (hdie : item.die? = none)
    (id : NodeId) :
    ∃ before after, (pool id items).render = before ++ (item.render ++ after) ∧
      (after = [] ∨ ∃ more, after = '+' :: more) := by
  have hne : ∀ item ∈ items, item.render ≠ [] :=
    fun item hitem =>
      (hitems item hitem).writtenAsTerms.groupFirst_render.ne_nil
  rw [render_pool hne, summands_eq_map]
  cases items with
  | nil => exact absurd hitem List.not_mem_nil
  | cons first rest =>
      have hmem := List.mem_map_of_mem
        (f := fun item : Node => (⟨item.die?, item.render⟩ : Summand)) hitem
      exact exists_intercalate_eq_of_mem
        (text_mem_collapseAfter (fun _ => rfl) hmem hdie)

/-- Unless it is part of a group, a child keeps its own text in the text of the
node, and a numeral or a group never stands right behind it. -/
theorem exists_render_eq_of_child
    {child node : Node}
    (hfilled : node.Filled)
    (hchild : child ∈ node.children)
    (hgroup : child.binding ≠ .group) :
    ∃ before after, node.render = before ++ (child.render ++ after) ∧
      ∀ rest, Detached rest → Detached (after ++ rest) := by
  have hparenthesize (back : Text) : ∃ before after,
      Text.parenthesize child.render ++ back =
          before ++ (child.render ++ after) ∧
        ∀ rest, Detached rest → Detached (after ++ rest) := by
    refine ⟨['('], ')' :: back, ?_, fun rest _ => detached_cons (by decide) _⟩
    rw [Text.parenthesize, List.append_assoc]
    rfl
  cases hfilled with
  | die => exact absurd hchild List.not_mem_nil
  | @pool id items hitems _ =>
      have hdie : child.die? = none := by
        cases child with
        | die => exact absurd rfl hgroup
        | _ => rfl
      obtain ⟨before, after, heq, hafter⟩ :=
        exists_render_pool_eq hitems hchild hdie id
      refine ⟨before, after, heq, fun rest hrest => ?_⟩
      rcases hafter with rfl | ⟨more, rfl⟩
      · exact hrest
      · exact detached_cons (by decide) _
  | @arithmetic id tracer op operand inner _ =>
      obtain rfl := List.mem_singleton.mp hchild
      rw [render]
      split
      · exact hparenthesize _
      · exact ⟨[], _, rfl, fun rest _ => detached_symbol op _⟩
  | @dropKeep id tracer selection threshold inner _ =>
      obtain rfl := List.mem_singleton.mp hchild
      have hrank : Binding.select.rank ≤ child.binding.rank := by
        cases hbinding : child.binding with
        | group => exact absurd hbinding hgroup
        | _ => decide
      rw [render, encloseAt, if_pos hrank, List.append_assoc]
      exact hparenthesize _
  | @explode id tracer comparator threshold inner _ =>
      obtain rfl := List.mem_singleton.mp hchild
      rw [render_explode, encloseAt]
      split
      · exact hparenthesize _
      · exact ⟨[], _, rfl, fun rest _ => detached_cons (by decide) _⟩

/-- A part with more than two suffixes at its end makes the whole text
crowded. -/
theorem crowded_of_occurs
    {part node : Node} {rest : Text}
    (hpart : Occurs part node)
    (hfilled : node.Filled)
    (hmany : 2 < part.trailing)
    (hrest : Detached rest) :
    node.binding ≠ .group ∧ ∀ room,
      crowded room (node.render ++ rest) = true := by
  induction hpart generalizing rest with
  | here =>
      have hpos : 0 < part.trailing := by omega
      obtain ⟨hbinding, hopen⟩ := binding_of_trailing_pos hpos
      rw [hbinding]
      refine ⟨by decide,
        takesRoom hfilled (by rw [hbinding]; decide) hrest ?_ (Or.inl hmany)⟩
      intro h
      rw [hopen] at h
      cases h
  | @inside child node _ hchild ih =>
      have hgroup : child.binding ≠ .group :=
        (ih (hfilled.child hchild) hrest).1
      obtain ⟨before, after, hrender, hafter⟩ :=
        exists_render_eq_of_child hfilled hchild hgroup
      refine ⟨fun h => hgroup (binding_eq_group_of_child hchild h), ?_⟩
      rw [hrender, List.append_assoc, List.append_assoc]
      exact crowded_append_of_forall
        (ih (hfilled.child hchild) (hafter rest hrest)).2 before

end Node
end DiceNotation
