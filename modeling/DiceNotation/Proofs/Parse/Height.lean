import DiceNotation.Proofs.Node.Exactness
import DiceNotation.Proofs.Parse.Enclosed

/-!
# How high trees are that are read from text

Every evaluation recurses over the tree of a node.  Trees that are read from
text have no more levels than the parentheses in the text allow, however long
the text is: between two pairs of parentheses there is room for a pool, a
selection, an explosion and two arithmetic modifiers.

Levels are counted along the paths that go down from the node.  The rules bound
the parts on a path that are not explosions, and there is at most one explosion
on a path, since nothing explodes that contains an explosion.
-/

namespace DiceNotation
namespace Node

instance : DecidablePred IsExplosion := fun node =>
  match node with
  | explode id tracer comparator threshold inner =>
      isTrue (.mk id tracer comparator threshold inner)
  | die _ _ => isFalse nofun
  | pool _ _ => isFalse nofun
  | arithmetic _ _ _ _ _ => isFalse nofun
  | dropKeep _ _ _ _ _ => isFalse nofun

/-! ## Height -/

mutual

/-- The number of levels of the tree. -/
def height : Node → Nat
  | die _ _ => 1
  | pool _ items => 1 + highest items
  | arithmetic _ _ _ _ inner => 1 + height inner
  | dropKeep _ _ _ _ inner => 1 + height inner
  | explode _ _ _ _ inner => 1 + height inner

/-- The height of the highest of the nodes, which is zero if there are none. -/
def highest : List Node → Nat
  | [] => 0
  | item :: rest => max (height item) (highest rest)

end

variable {node part : Node} {path : List Node} {n : Nat}

theorem height_eq (node : Node) : node.height = 1 + highest node.children := by
  cases node with
  | die | pool => rfl
  | arithmetic | dropKeep | explode =>
      rw [height, children, highest, highest, Nat.max_zero]

theorem height_le_highest
    {items : List Node} {item : Node}
    (h : item ∈ items) :
    item.height ≤ highest items := by
  induction items with
  | nil => exact absurd h List.not_mem_nil
  | cons first rest ih =>
      rw [highest]
      rcases List.mem_cons.mp h with rfl | h
      · exact le_max_left _ _
      · exact (ih h).trans (le_max_right _ _)

theorem exists_height_eq_highest
    {items : List Node}
    (h : items ≠ []) :
    ∃ item ∈ items, item.height = highest items := by
  induction items with
  | nil => exact absurd rfl h
  | cons first rest ih =>
      by_cases hrest : rest = []
      · refine ⟨first, List.mem_cons_self, ?_⟩
        rw [hrest, highest, highest, Nat.max_zero]
      · obtain ⟨item, hitem, hheight⟩ := ih hrest
        rw [highest, ← hheight]
        rcases le_total first.height item.height with hle | hle
        · exact ⟨item, List.mem_cons_of_mem _ hitem, (max_eq_right hle).symm⟩
        · exact ⟨first, List.mem_cons_self, (max_eq_left hle).symm⟩

/-- The height of a node only depends on its structure. -/
theorem height_bare (node : Node) : node.bare.height = node.height := by
  have hhighest (items : List Node)
      (hitems : ∀ item ∈ items, item.bare.height = item.height) :
      highest (items.map bare) = highest items := by
    induction items with
    | nil => rfl
    | cons first rest ih =>
        rw [List.forall_mem_cons] at hitems
        rw [List.map_cons, highest, highest, hitems.1, ih hitems.2]
  induction node using induction_members with
  | die => rfl
  | pool id items ih => rw [bare_pool, height, height, hhighest items ih]
  | arithmetic _ _ _ _ _ ih | dropKeep _ _ _ _ _ ih _
  | explode _ _ _ _ _ ih _ =>
      rw [bare, height, height, ih]

/-! ## Paths -/

/-- A path goes down from a node to a child of it, again and again, and may stop
anywhere. -/
inductive Path : Node → List Node → Prop where
  | stop (node : Node) : Path node [node]
  | down {child node : Node} {path : List Node} :
      child ∈ node.children → Path child path → Path node (node :: path)

theorem Path.length_le_height (h : Path node path) :
    path.length ≤ node.height := by
  induction h with
  | stop node =>
      rw [height_eq]
      exact Nat.le_add_right 1 _
  | @down child node path hchild _ ih =>
      have hheight := height_le_highest hchild
      rw [height_eq, List.length_cons]
      omega

theorem exists_path_length_eq_height (node : Node) :
    ∃ path, Path node path ∧ path.length = node.height := by
  -- the highest child is one level lower than the node
  induction hn : node.height generalizing node with
  | zero =>
      rw [height_eq] at hn
      omega
  | succ n ih =>
      rw [height_eq] at hn
      by_cases hchildren : node.children = []
      · refine ⟨[node], .stop node, ?_⟩
        rw [hchildren, highest] at hn
        rw [List.length_singleton]
        omega
      · obtain ⟨child, hchild, hheight⟩ := exists_height_eq_highest hchildren
        obtain ⟨path, hpath, hlength⟩ := ih child (by omega)
        exact ⟨node :: path, .down hchild hpath,
          by rw [List.length_cons, hlength]⟩

/-- The height is the length of a longest path. -/
theorem height_le_iff :
    node.height ≤ n ↔ ∀ path, Path node path → path.length ≤ n := by
  constructor
  · intro h path hpath
    exact hpath.length_le_height.trans h
  · intro h
    obtain ⟨path, hpath, hlength⟩ := exists_path_length_eq_height node
    rw [← hlength]
    exact h path hpath

theorem Path.occurs
    (h : Path node path)
    (hpart : part ∈ path) :
    Occurs part node := by
  induction h with
  | stop node =>
      rw [List.mem_singleton.mp hpart]
      exact .here node
  | down hchild _ ih =>
      rcases List.mem_cons.mp hpart with rfl | hpart
      · exact .here _
      · exact (ih hpart).inside hchild

/-- The number of explosions on the path. -/
def explosions (path : List Node) : Nat :=
  path.countP fun part => part.IsExplosion

/-- The number of other nodes on the path. -/
def others (path : List Node) : Nat :=
  path.countP fun part => ¬part.IsExplosion

theorem length_eq_explosions_add_others (path : List Node) :
    path.length = explosions path + others path := by
  rw [List.length_eq_countP_add_countP (fun part => decide part.IsExplosion),
    explosions, others]
  simp only [decide_not, Bool.not_eq_true, Bool.decide_eq_false]

/-- Nothing explodes that contains an explosion, so there is at most one on
every path. -/
theorem Path.explosions_le_one
    (h : Path node path)
    (hnode : node.WellFormed) :
    explosions path ≤ 1 := by
  induction h with
  | stop node => exact List.countP_le_length
  | @down child node path hchild hpath ih =>
      by_cases hexplosion : node.IsExplosion
      · have hbelow : explosions path = 0 := by
          refine List.countP_eq_zero.mpr fun part hpart => ?_
          rw [decide_eq_true_eq]
          exact not_isExplosion_of_below hnode hexplosion
            ⟨child, hchild, hpath.occurs hpart⟩
        rw [explosions, List.countP_cons_of_pos (by simpa using hexplosion)]
        exact Nat.succ_le_succ hbelow.le
      · rw [explosions, List.countP_cons_of_neg (by simpa using hexplosion)]
        exact ih (hnode.of_occurs ((Occurs.here child).inside hchild))

/-- Every path from the node has at most so many parts that are not
explosions. -/
def OthersAtMost (n : Nat) (node : Node) : Prop :=
  ∀ path, Path node path → others path ≤ n

theorem OthersAtMost.mono
    {n m : Nat}
    (h : node.OthersAtMost n)
    (hn : n ≤ m) :
    node.OthersAtMost m :=
  fun path hpath => (h path hpath).trans hn

theorem othersAtMost_of_children
    (h : ∀ child ∈ node.children, child.OthersAtMost n) :
    node.OthersAtMost (n + 1) := by
  intro path hpath
  cases hpath with
  | stop => exact List.countP_le_length.trans (Nat.le_add_left 1 n)
  | @down child node path hchild hpath =>
      have hothers : others (node :: path) ≤ others path + 1 := by
        rw [others, others, List.countP_cons]
        split <;> omega
      exact hothers.trans (Nat.succ_le_succ (h child hchild path hpath))

theorem othersAtMost_explode
    {id : NodeId} {tracer : Tracer} {comparator : Comparator}
    {threshold : Option Int} {inner : Node}
    (h : inner.OthersAtMost n) :
    (explode id tracer comparator threshold inner).OthersAtMost n := by
  have hnode : others [explode id tracer comparator threshold inner] = 0 := rfl
  intro path hpath
  cases hpath with
  | stop => exact hnode.trans_le (Nat.zero_le n)
  | down hchild hpath =>
      cases List.mem_singleton.mp hchild
      rw [others,
        List.countP_cons_of_neg (by simpa using IsExplosion.mk _ _ _ _ _)]
      exact h _ hpath

/-- One level is added for the explosion on the path. -/
theorem height_le_of_othersAtMost
    (h : node.OthersAtMost n)
    (hnode : node.WellFormed) :
    node.height ≤ n + 1 := by
  refine height_le_iff.mpr fun path hpath => ?_
  have hexplosions := hpath.explosions_le_one hnode
  have hothers := h path hpath
  rw [length_eq_explosions_add_others]
  omega

end Node

/-! ## The rules -/

namespace Grammar

open Node

variable {tracer : Tracer} {inner node : Node} {s : Text} {n : Nat}

theorem Copies.othersAtMost {d : Die} (h : Copies d n node) :
    node.OthersAtMost 2 := by
  have hdie (id : NodeId) : (die id d).OthersAtMost 1 :=
    othersAtMost_of_children fun _ hchild => absurd hchild List.not_mem_nil
  cases h with
  | single id => exact (hdie id).mono (by decide)
  | several id _ =>
      refine othersAtMost_of_children fun child hchild => ?_
      obtain ⟨id', -, rfl⟩ := List.mem_map.mp hchild
      exact hdie id'

theorem Selected.othersAtMost
    (h : Selected tracer inner s node)
    (hinner : inner.OthersAtMost n) :
    node.OthersAtMost (n + 1) := by
  cases h with
  | none => exact hinner.mono (Nat.le_succ n)
  | single | threshold =>
      exact othersAtMost_of_children (List.forall_mem_singleton.mpr hinner)

theorem Exploded.othersAtMost
    (h : Exploded tracer inner s node)
    (hinner : inner.OthersAtMost n) :
    node.OthersAtMost n := by
  cases h with
  | none => exact hinner
  | plain | threshold | comparator | compared =>
      exact othersAtMost_explode hinner

theorem Suffixed.othersAtMost
    {allowed : Nat}
    (h : Suffixed tracer allowed inner s node)
    (hinner : inner.OthersAtMost n) :
    node.OthersAtMost (n + allowed) := by
  induction h generalizing n with
  | none => exact hinner.mono (Nat.le_add_right _ _)
  | suffix _ _ _ _ ih =>
      rw [← Nat.add_assoc, Nat.add_right_comm]
      exact ih (othersAtMost_of_children (List.forall_mem_singleton.mpr hinner))

/-- Each pair of parentheses makes room for a selection, two arithmetic
modifiers and a pool. -/
theorem Expression.othersAtMost
    {most depth : Nat}
    (h : Expression most tracer depth s node) :
    node.OthersAtMost (4 * depth + 6) := by
  -- groups are bounded by `4 * depth + 2`, terms by `4 * depth + 5`
  induction h using Expression.rec
    (motive_1 := fun depth _ node _ => node.OthersAtMost (4 * depth + 2))
    (motive_2 := fun depth _ node _ => node.OthersAtMost (4 * depth + 5))
    (motive_3 := fun depth _ nodes _ =>
      ∀ node ∈ nodes, node.OthersAtMost (4 * depth + 5)) with
  | dice _ _ hcopies => exact hcopies.othersAtMost.mono (Nat.le_add_left _ _)
  | enclosed _ ih => exact ih.mono (by omega)
  | mk _ hselected hexploded hsuffixed ih =>
      exact hsuffixed.othersAtMost
        (hexploded.othersAtMost (hselected.othersAtMost ih))
  | last _ ih _ hnode =>
      rw [List.mem_singleton.mp hnode]
      exact ih
  | next _ _ ih ihs _ hnode =>
      rcases List.mem_cons.mp hnode with rfl | hnode
      · exact ih
      · exact ihs _ hnode
  | term _ ih => exact (ih _ List.mem_cons_self).mono (by omega)
  | sum _ _ _ ih => exact othersAtMost_of_children ih

end Grammar

/-! ## Texts -/

namespace Parse

open Building Node Text

variable {tracer : Tracer} {text : Text} {node : Node}

theorem nesting_le_of_parse (h : (parse tracer text).Returns node) :
    text.nesting ≤ 64 := by
  have hread := (expression_of_wholeText h).2
  have hfits := fits_expression_again h text.normalize deepestNesting [] .nil
  rw [List.append_nil, nesting_normalize] at hfits
  exact (hfits.of_returns hread).1

/-- With each pair of parentheses that are nested, a tree has at most four more
levels. -/
theorem height_le_of_parse
    (h : (parse tracer text).Returns node) :
    node.height ≤ 4 * text.nesting + 7 := by
  have hfits := fits_expression_again h text.normalize text.nesting [] .nil
  rw [List.append_nil, nesting_normalize] at hfits
  obtain ⟨⟨again, rest⟩, hagain, hbare, -⟩ := hfits.exists_returns le_rfl
  obtain ⟨w, -, hword⟩ := exists_expression_of_expression _ hagain
  have hwellFormed := (parsed_of_expression _ _ _ hagain).constructed.wellFormed
  have hheight := height_le_of_othersAtMost hword.othersAtMost hwellFormed
  have hsame : again.bare.height = node.bare.height := congrArg height hbare
  rw [height_bare, height_bare] at hsame
  rwa [← hsame]

end Parse

open Parse Node in
/-- Parentheses nest at most 64 deep in a text that is read, and they bound the
height of the tree, whatever the length of the text.  Every pool in the tree has
several items, and on every path there is at most one explosion. -/
theorem shape_of_parsed_trees
    {tracer : Tracer} {text : Text} {node : Node}
    (h : (parse tracer text).Returns node) :
    text.nesting ≤ 64 ∧ node.height ≤ 5 * text.nesting + 7 ∧ node.height ≤ 327 ∧
      (∀ id items, Occurs (.pool id items) node → 2 ≤ items.length) ∧
      ∀ path, Path node path → explosions path ≤ 1 := by
  obtain ⟨hconstructed, hplural⟩ := parsed_of_parse h
  have hnesting := nesting_le_of_parse h
  have hheight := height_le_of_parse h
  refine ⟨hnesting, by omega, by omega, ?_, ?_⟩
  · intro id items hpool
    cases hplural.of_occurs hpool with
    | pool _ hlength => exact hlength
  · intro path hpath
    exact hpath.explosions_le_one hconstructed.wellFormed

/-- A sum with everything that fits into it has seven levels, and another one in
parentheses adds four, as it cannot explode again. -/
theorem shape_of_exploding_sum :
    ∃ node : Node,
      (parse Tracer.silent "(2d6KH1+1+1+d4)KH1!+1+1+d4".toList).Returns node ∧
        node.height = 11 ∧ node.height ≤ 327 ∧
        ∀ path, Node.Path node path → Node.explosions path ≤ 1 := by
  let inner : Node := .pool 8
    [.arithmetic 6 Tracer.silent .add 1 (.arithmetic 5 Tracer.silent .add 1
      (.dropKeep 4 Tracer.silent .keepHighest 1
        (.pool 3 [.die 1 (.sided 6), .die 2 (.sided 6)]))),
    .die 7 (.sided 4)]
  let node : Node := .pool 14
    [.arithmetic 12 Tracer.silent .add 1 (.arithmetic 11 Tracer.silent .add 1
      (.explode 10 Tracer.silent .equal none
        (.dropKeep 9 Tracer.silent .keepHighest 1 inner))),
    .die 13 (.sided 4)]
  have hread :
      (parse Tracer.silent "(2d6KH1+1+1+d4)KH1!+1+1+d4".toList).Returns node :=
    ⟨Memory.empty, by cbv⟩
  obtain ⟨-, -, hheight, -, hpaths⟩ := shape_of_parsed_trees hread
  exact ⟨node, hread, rfl, hheight, hpaths⟩

end DiceNotation
