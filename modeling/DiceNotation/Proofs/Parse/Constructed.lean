import DiceNotation.Parse.Expression
import DiceNotation.Proofs.Node.Constructed
import DiceNotation.Proofs.Parse.Integers

/-!
# What the reader returns

Every node that is read from text was put together with the constructors, from
numbers in the range of values.  Moreover no pool in it is empty or has a single
item, because a single term is returned without a pool around it.
-/

namespace DiceNotation

namespace Building

variable {α β : Type}

theorem Returns.bind
    {b : Building α} {f : α → Building β} {c : β}
    (h : (b >>= f).Returns c) :
    ∃ a, b.Returns a ∧ (f a).Returns c := by
  obtain ⟨m, hm⟩ := h
  rw [outcome_bind] at hm
  rcases hrun : (ExceptT.run b).run m with ⟨e | a, after⟩
  · rw [hrun] at hm
    cases hm
  · rw [hrun] at hm
    have ha : b.outcome m = .ok a := by rw [outcome, hrun]
    exact ⟨a, ⟨m, ha⟩, after, hm⟩

theorem Returns.of_pure
    {a b : α}
    (h : (pure a : Building α).Returns b) :
    b = a := by
  obtain ⟨m, hm⟩ := h
  cases hm
  rfl

theorem not_returns_throw
    {e : Error} {a : α} :
    ¬(throw e : Building α).Returns a := by
  rintro ⟨m, hm⟩
  cases hm

end Building

namespace Node

/-- Every pool in the node has at least two items. -/
inductive Plural : Node → Prop where
  | die (id : NodeId) (d : Die) : Plural (die id d)
  | pool {id : NodeId} {items : List Node} :
      (∀ item ∈ items, Plural item) → 2 ≤ items.length → Plural (pool id items)
  | arithmetic {id : NodeId} {tracer : Tracer} {op : Operator} {operand : Nat}
      {inner : Node} :
      Plural inner → Plural (arithmetic id tracer op operand inner)
  | dropKeep {id : NodeId} {tracer : Tracer} {selection : Selection}
      {threshold : Nat} {inner : Node} :
      Plural inner → Plural (dropKeep id tracer selection threshold inner)
  | explode {id : NodeId} {tracer : Tracer} {comparator : Comparator}
      {threshold : Option Int} {inner : Node} :
      Plural inner → Plural (explode id tracer comparator threshold inner)

theorem Plural.of_occurs
    {part node : Node}
    (h : node.Plural)
    (hpart : Occurs part node) :
    part.Plural := by
  induction hpart with
  | here => exact h
  | inside _ hchild ih =>
      refine ih ?_
      cases h with
      | die => exact absurd hchild List.not_mem_nil
      | pool hitems _ => exact hitems _ hchild
      | arithmetic hinner | dropKeep hinner | explode hinner =>
          rwa [List.mem_singleton.mp hchild]

/-- What is known of a node that was read from text. -/
structure Parsed (node : Node) : Prop where
  constructed : Constructed node
  plural : Plural node

end Node

namespace Parse

open Building Node

theorem ok_of_bind
    {ε α β : Type} {x : Except ε α} {f : α → Except ε β} {b : β}
    (h : x >>= f = .ok b) :
    ∃ a, x = .ok a ∧ f a = .ok b := by
  cases x with
  | ok a => exact ⟨a, rfl, h⟩
  | error e => cases h

theorem returns_scanned
    {α : Type} {result : Except SyntaxFault α} {a : α}
    (h : (scanned result).Returns a) :
    result = .ok a := by
  cases result with
  | ok b => rw [Returns.of_pure h]
  | error fault => exact absurd h not_returns_throw

/-! ## Numbers and dice -/

theorem holds_of_integer
    {signed : Bool} {s rest : Text} {n : Int}
    (h : integer signed s = .ok (some n, rest)) :
    Limits.Holds n :=
  (integer_eq_some_iff.mp h).1

theorem holds_of_face
    {whole s rest : Text} {n : Int}
    (h : face whole s = .ok (n, rest)) :
    Limits.Holds n := by
  obtain ⟨⟨n?, more⟩, hinteger, hface⟩ := ok_of_bind h
  cases n? with
  | none => cases hface
  | some n' =>
      cases hface
      exact holds_of_integer hinteger

/-- As many faces are read as are allowed, and at least one. -/
theorem holds_of_faces
    {whole : Text} {allowed : Nat} {s rest : Text} {ns : List Int}
    (h : faces whole allowed s = .ok (ns, rest)) :
    ns ≠ [] ∧ ns.length ≤ allowed ∧ ∀ n ∈ ns, Limits.Holds n := by
  induction allowed generalizing s ns with
  | zero =>
      obtain ⟨_, _, hfaces⟩ := ok_of_bind h
      cases hfaces
  | succ allowed ih =>
      rw [faces] at h
      obtain ⟨⟨n, more⟩, hface, hrest⟩ := ok_of_bind h
      have hn := holds_of_face hface
      have hlast (hns :
          (Except.ok ([n], more) : Except SyntaxFault (List Int × Text)) =
            .ok (ns, rest)) :
          ns ≠ [] ∧ ns.length ≤ allowed + 1 ∧ ∀ n ∈ ns, Limits.Holds n := by
        cases hns
        exact ⟨List.cons_ne_nil _ _, by simp, by simpa using hn⟩
      dsimp only at hrest
      split at hrest
      · obtain ⟨⟨others, end'⟩, hothers, hns⟩ := ok_of_bind hrest
        cases hns
        obtain ⟨-, hlength, hholds⟩ := ih hothers
        exact ⟨List.cons_ne_nil _ _,
          by simpa using hlength, by simpa using ⟨hn, hholds⟩⟩
      · exact hlast hrest

/-- A die that is read could have been made by one of the constructors. -/
theorem constructed_of_sides
    {whole group s rest : Text} {d : Die} {node : Node}
    (h : sides whole group s = .ok (d, rest))
    (hnode : (Build.die d).Returns node) :
    Constructed node := by
  unfold sides at h
  split at h
  · cases h
    exact .fudge hnode
  · cases h
    have hsides : Limits.Holds 100 := by decide
    exact .sided hsides rfl hnode
  · obtain ⟨⟨ns, more⟩, hfaces, hrest⟩ := ok_of_bind h
    obtain ⟨⟨⟨⟩, end'⟩, _, hd⟩ := ok_of_bind hrest
    cases hd
    obtain ⟨hne, hlength, hholds⟩ := holds_of_faces hfaces
    refine .custom hholds ?_ hnode
    rw [Die.ofFaces, if_neg hne, if_neg (by omega)]
  · obtain ⟨⟨n?, more⟩, hinteger, hd⟩ := ok_of_bind h
    cases n? with
    | none => cases hd
    | some n =>
        dsimp only at hd
        split at hd
        · cases hd
        · rename_i hmany
          cases hd
          refine .sided (holds_of_integer hinteger) ?_ hnode
          rw [Die.ofSides, if_neg hmany]

/-! ## Nodes -/

/-- All nodes that a reader returns have the property of nodes that were read
from text. -/
def ReadsParsed (reader : Reader Node) : Prop :=
  ∀ {s rest : Text} {node : Node}, (reader s).Returns (node, rest) → Parsed node

theorem parsed_of_dice {whole : Text} : ReadsParsed (dice whole) := by
  intro s rest node h
  obtain ⟨⟨⟨n, d⟩, more⟩, hcounted, h⟩ := h.bind
  have hd : ∃ group s' rest', sides whole group s' = .ok (d, rest') := by
    obtain ⟨⟨n', more'⟩, -, hdie⟩ := ok_of_bind (returns_scanned hcounted)
    dsimp only at hdie
    split at hdie
    · obtain ⟨⟨d', rest'⟩, hsides, hd⟩ := ok_of_bind hdie
      cases hd
      exact ⟨_, _, _, hsides⟩
    · cases hdie
  obtain ⟨group, s', rest', hsides⟩ := hd
  obtain ⟨first, hfirst, h⟩ := h.bind
  have hconstructed := constructed_of_sides hsides hfirst
  obtain ⟨-, id, rfl⟩ := (Build.accepts_die d).of_returns hfirst
  split at h
  · cases Returns.of_pure h
    exact ⟨hconstructed, .die id d⟩
  · rename_i hmany
    obtain ⟨pool, hpool, h⟩ := h.bind
    cases Returns.of_pure h
    refine ⟨.repeated hconstructed hpool, ?_⟩
    obtain ⟨hcount, id', ids, hlength, rfl⟩ :=
      (Build.accepts_repeated _ _).of_returns hpool
    refine .pool ?_ (by rw [List.length_map]; omega)
    intro item hitem
    obtain ⟨copy, -, rfl⟩ := List.mem_map.mp hitem
    exact .die copy d

theorem parsed_of_group
    {whole : Text} {inner : Option (Reader Node)}
    (h : ∀ expression ∈ inner, ReadsParsed expression) :
    ReadsParsed (group whole inner) := by
  intro s rest node hnode
  unfold group at hnode
  split at hnode
  · split at hnode
    · exact absurd hnode not_returns_throw
    · obtain ⟨⟨node', more⟩, hexpression, hrest⟩ := hnode.bind
      obtain ⟨_, _, hpure⟩ := hrest.bind
      cases Returns.of_pure hpure
      exact h _ rfl hexpression
  · exact parsed_of_dice hnode

section Modifiers

variable {tracer : Tracer} {inner node : Node} {s rest : Text}

theorem parsed_of_selected
    (hinner : Parsed inner)
    (h : (selected tracer inner s).Returns (node, rest)) :
    Parsed node := by
  obtain ⟨⟨selection?, more⟩, -, h⟩ := h.bind
  cases selection? with
  | none =>
      cases Returns.of_pure h
      exact hinner
  | some selection =>
      obtain ⟨⟨threshold, more'⟩, hinteger, h⟩ := h.bind
      obtain ⟨node', hnode, h⟩ := h.bind
      cases Returns.of_pure h
      have hholds : Limits.Holds (threshold.getD 1) := by
        cases threshold with
        | none => decide
        | some n => exact holds_of_integer (returns_scanned hinteger)
      refine ⟨.dropKeep hinner.constructed hholds hnode, ?_⟩
      obtain ⟨-, id, rfl⟩ := (Build.accepts_dropKeep _ _ _ _).of_returns hnode
      exact .dropKeep hinner.plural

theorem parsed_of_exploded
    (hinner : Parsed inner)
    (h : (exploded tracer inner s).Returns (node, rest)) :
    Parsed node := by
  unfold exploded at h
  split at h
  · obtain ⟨⟨threshold, more⟩, hinteger, h⟩ := h.bind
    obtain ⟨node', hnode, h⟩ := h.bind
    cases Returns.of_pure h
    have hholds : ∀ t ∈ threshold, Limits.Holds t := by
      rintro t ⟨⟩
      exact holds_of_integer (returns_scanned hinteger)
    refine ⟨.explode hinner.constructed hholds hnode, ?_⟩
    obtain ⟨-, id, rfl⟩ := (Build.accepts_explode _ _ _ _).of_returns hnode
    exact .explode hinner.plural
  · cases Returns.of_pure h
    exact hinner

theorem holds_of_suffix
    {whole more : Text} {op : Operator} {n : Int}
    (h : suffix whole s = .ok (some (op, n), more)) :
    Limits.Holds n := by
  unfold suffix at h
  split at h
  · cases h
  · obtain ⟨⟨n?, more'⟩, hinteger, h⟩ := ok_of_bind h
    cases n? with
    | none => cases h
    | some n' =>
        cases h
        exact holds_of_integer hinteger

theorem parsed_of_suffixed
    {whole : Text} {allowed : Nat}
    (hinner : Parsed inner)
    (h : (suffixed tracer whole allowed inner s).Returns (node, rest)) :
    Parsed node := by
  induction allowed generalizing inner s with
  | zero =>
      rw [suffixed] at h
      obtain ⟨⟨found, more⟩, -, h⟩ := h.bind
      cases found with
      | none =>
          cases Returns.of_pure h
          exact hinner
      | some found => exact absurd h not_returns_throw
  | succ allowed ih =>
      rw [suffixed] at h
      obtain ⟨⟨found, more⟩, hsuffix, h⟩ := h.bind
      cases found with
      | none =>
          cases Returns.of_pure h
          exact hinner
      | some found =>
          obtain ⟨op, n⟩ := found
          obtain ⟨node', hnode, h⟩ := h.bind
          have hholds := holds_of_suffix (returns_scanned hsuffix)
          refine ih ⟨.arithmetic hinner.constructed hholds hnode, ?_⟩ h
          obtain ⟨-, id, rfl⟩ :=
            (Build.accepts_arithmetic _ _ _ _).of_returns hnode
          exact .arithmetic hinner.plural

end Modifiers

theorem parsed_of_term
    {tracer : Tracer} {whole : Text} {group : Reader Node}
    (hgroup : ReadsParsed group) :
    ReadsParsed (term tracer whole group) := by
  intro s rest node h
  obtain ⟨⟨first, more⟩, hfirst, h⟩ := h.bind
  obtain ⟨⟨second, more'⟩, hsecond, h⟩ := h.bind
  obtain ⟨⟨third, more''⟩, hthird, h⟩ := h.bind
  have hinner :=
    parsed_of_exploded (parsed_of_selected (hgroup hfirst) hsecond) hthird
  exact parsed_of_suffixed hinner h

theorem parsed_of_terms
    {term : Reader Node}
    (hterm : ReadsParsed term)
    {limit : Nat} {s rest : Text} {nodes : List Node}
    (h : (terms term limit s).Returns (nodes, rest)) :
    ∀ node ∈ nodes, Parsed node := by
  induction limit generalizing s nodes with
  | zero =>
      cases Returns.of_pure h
      intro node hnode
      exact absurd hnode List.not_mem_nil
  | succ limit ih =>
      obtain ⟨⟨first, more⟩, hfirst, h⟩ := h.bind
      have hparsed := hterm hfirst
      have hlast (hnodes :
          (pure ([first], more) : Building (List Node × Text)).Returns
            (nodes, rest)) : ∀ node ∈ nodes, Parsed node := by
        cases Returns.of_pure hnodes
        simpa using hparsed
      dsimp only at h
      split at h
      · split at h
        · obtain ⟨⟨others, rest'⟩, hothers, h⟩ := h.bind
          cases Returns.of_pure h
          rw [List.forall_mem_cons]
          exact ⟨hparsed, ih hothers⟩
        · exact hlast h
      · exact hlast h

theorem length_pos_of_terms
    {term : Reader Node} {limit : Nat} {s rest : Text} {nodes : List Node}
    (h : (terms term (limit + 1) s).Returns (nodes, rest)) :
    0 < nodes.length := by
  obtain ⟨⟨first, more⟩, -, h⟩ := h.bind
  dsimp only at h
  split at h
  · split at h
    · obtain ⟨⟨others, rest'⟩, -, h⟩ := h.bind
      cases Returns.of_pure h
      exact Nat.succ_pos _
    · cases Returns.of_pure h
      exact Nat.one_pos
  · cases Returns.of_pure h
    exact Nat.one_pos

theorem parsed_of_sum
    {term : Reader Node}
    (hterm : ReadsParsed term) :
    ReadsParsed (sum term) := by
  intro s rest node h
  obtain ⟨⟨nodes, more⟩, hnodes, h⟩ := h.bind
  have hparsed := parsed_of_terms hterm hnodes
  have hpos := length_pos_of_terms hnodes
  match nodes with
  | [] => cases hpos
  | [first] =>
      cases Returns.of_pure h
      exact hparsed _ List.mem_cons_self
  | first :: second :: others =>
      obtain ⟨pool, hpool, h⟩ := h.bind
      cases Returns.of_pure h
      refine ⟨.pool (fun item hitem => (hparsed item hitem).constructed) hpool,
        ?_⟩
      obtain ⟨-, id, rfl⟩ := (Build.accepts_pool _).of_returns hpool
      exact .pool (fun item hitem => (hparsed item hitem).plural) (by simp)

theorem parsed_of_expression (tracer : Tracer) (whole : Text) (depth : Nat) :
    ReadsParsed (expression tracer whole depth) := by
  induction depth with
  | zero =>
      refine parsed_of_sum (parsed_of_term (parsed_of_group ?_))
      rintro _ ⟨⟩
  | succ depth ih =>
      refine parsed_of_sum (parsed_of_term (parsed_of_group ?_))
      rintro _ ⟨⟩
      exact ih

/-- A text that is read is not empty, and it is an expression to its end. -/
theorem expression_of_wholeText
    {tracer : Tracer} {whole : Text} {node : Node}
    (h : (wholeText tracer whole).Returns node) :
    whole ≠ [] ∧ (expression tracer whole deepestNesting whole).Returns
      (node, []) := by
  unfold wholeText at h
  split at h
  · exact absurd h not_returns_throw
  · rename_i hne
    obtain ⟨⟨node', rest⟩, hexpression, hend⟩ := h.bind
    dsimp only at hend
    split at hend
    · rename_i hrest
      cases Returns.of_pure hend
      rw [hrest] at hexpression
      exact ⟨hne, hexpression⟩
    · exact absurd hend not_returns_throw

/-- Every node that is read from text was put together with the constructors,
and its pools have several items. -/
theorem parsed_of_parse
    {tracer : Tracer} {text : Text} {node : Node}
    (h : (parse tracer text).Returns node) :
    Parsed node :=
  parsed_of_expression _ _ _ (expression_of_wholeText h).2

end Parse
end DiceNotation
