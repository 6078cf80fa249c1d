import DiceNotation.Proofs.History.Building
import DiceNotation.Proofs.Parse.Reads

/-!
# What reading leaves behind

Reading an expression builds its nodes one by one.  If it comes to its end, all
nodes that were built for good are in the tree that it returns, and the calls
that were made are those of building this tree.  If it fails, nothing that was
there before has changed.
-/

namespace DiceNotation

namespace Building

open Node

variable {α β : Type}

/-- From every recorded memory, if building comes to its end, new nodes were
built and calls were made as described.  Nothing in particular is said about
failures. -/
def Leaves (b : Building α) (nodes : List Node)
    (P : α → List Node → List Call → Prop) : Prop :=
  Builds b nodes fun r new calls => ∀ a, r = .ok a → P a new calls

variable {nodes : List Node} {P : α → List Node → List Call → Prop}
  {Q : β → List Node → List Call → Prop}

theorem leaves_pure
    {a : α}
    (h : P a [] []) :
    Leaves (pure a) nodes P := by
  apply builds_pure
  intro b hb
  cases hb
  exact h

theorem leaves_throw (e : Error) : Leaves (throw e : Building α) nodes P := by
  apply builds_throw
  intro a ha
  cases ha

theorem Leaves.bind
    {b : Building α} {f : α → Building β}
    (hb : Leaves b nodes P)
    (hf : ∀ a new calls, P a new calls →
      Leaves (f a) (nodes ++ new)
        fun c more calls' => Q c (new ++ more) (calls ++ calls')) :
    Leaves (b >>= f) nodes Q := by
  apply Builds.bind hb
  · intro a new calls hP
    exact hf a new calls (hP a rfl)
  · intro e new calls hP a ha
    cases ha

/-- What is returned in the end may be changed. -/
theorem Leaves.finish
    {b : Building α} {g : α → β}
    (hb : Leaves b nodes P)
    (hPQ : ∀ a new calls, P a new calls → Q (g a) new calls) :
    Leaves (b >>= fun a => pure (g a)) nodes Q := by
  apply hb.bind
  intro a new calls hP
  apply leaves_pure
  rw [List.append_nil, List.append_nil]
  exact hPQ a new calls hP

/-- A constructor whose results are known builds such a node and makes the calls
that it is known for. -/
theorem Builds.leaves
    {b : Building Node} {made : List Call} {C : Prop} {R : Node → Prop}
    (hb : Builds b nodes (Makes made))
    (haccepts : Accepts b C R) :
    Leaves b nodes fun node new calls =>
      R node ∧ new = [node] ∧ calls = made := by
  intro first traces m hm
  obtain ⟨new, calls, ⟨hnew, hcalls⟩, hrest⟩ := hb hm
  refine ⟨new, calls, ?_, hrest⟩
  intro node hok
  have hR := (haccepts.of_returns ⟨m, hok⟩).2
  rw [hok] at hnew
  exact ⟨hR, hnew, hcalls⟩

end Building

namespace Parse

open Building Node

variable {nodes : List Node} {tracer : Tracer} {whole : Text}

theorem leaves_scanned
    {α β : Type} {result : Except SyntaxFault α} {f : α → Building β}
    {Q : β → List Node → List Call → Prop}
    (hf : ∀ a, Leaves (f a) nodes Q) :
    Leaves (scanned result >>= f) nodes Q := by
  cases result with
  | ok a => exact hf a
  | error fault => exact leaves_throw _

/-- A node that was read is there, and the calls were those of building it. -/
def IsBuilt (nodes : List Node) (p : Node × Text) (new : List Node)
    (calls : List Call) : Prop :=
  Present (nodes ++ new) p.1 ∧ calls = buildCalls p.1

/-- A node that was read behind another is there, and the calls were those of
building it from the other. -/
def IsExtended (nodes : List Node) (node : Node) (p : Node × Text)
    (new : List Node) (calls : List Call) : Prop :=
  Present (nodes ++ new) p.1 ∧ buildCalls p.1 = buildCalls node ++ calls

theorem present_new (nodes : List Node) (node : Node) :
    Present (nodes ++ [node]) node :=
  present_append_iff.mpr
    (Or.inr (present_of_mem (List.mem_singleton_self node)))

theorem present_some
    {node : Node}
    (h : Present nodes node) :
    ∀ inner ∈ some node, Present nodes inner := by
  rintro inner ⟨⟩
  exact h

theorem leaves_self
    {node : Node}
    (h : Present nodes node)
    (rest : Text) :
    Leaves (pure (node, rest)) nodes (IsExtended nodes node) := by
  apply leaves_pure
  constructor
  · rw [List.append_nil]
    exact h
  · exact (List.append_nil _).symm

/-- What is read behind a node that was read is built from it. -/
theorem leaves_behind
    {b : Building (Node × Text)} {f : Node × Text → Building (Node × Text)}
    (hb : Leaves b nodes (IsBuilt nodes))
    (hf : ∀ {others p},
      Present others p.1 → Leaves (f p) others (IsExtended others p.1)) :
    Leaves (b >>= f) nodes (IsBuilt nodes) := by
  apply hb.bind
  rintro p new calls ⟨hpresent, rfl⟩
  apply (hf hpresent).weaken
  intro r more calls' h q hq
  obtain ⟨hpresent', hcalls'⟩ := h q hq
  constructor
  · rw [← List.append_assoc]
    exact hpresent'
  · exact hcalls'.symm

/-- A modifier that is built around a node and returned in front of a rest. -/
theorem Builds.extends
    {b : Building Node} {made : List Call} {C : Prop}
    {R : Node → Prop} {node : Node}
    (hb : Builds b nodes (Makes made))
    (haccepts : Accepts b C R)
    (hR : ∀ built, R built → buildCalls built = buildCalls node ++ made)
    (rest : Text) :
    Leaves (b >>= fun built => pure (built, rest)) nodes
      (IsExtended nodes node) := by
  apply (hb.leaves haccepts).finish
  rintro built new calls ⟨hbuilt, rfl, rfl⟩
  exact ⟨present_new nodes built, hR built hbuilt⟩

/-! ## Dice -/

theorem allBuildCalls_dice (d : Die) (ids : List NodeId) :
    allBuildCalls (ids.map fun id => die id d) = [] := by
  induction ids with
  | nil => rfl
  | cons id ids ih => exact ih

/-- Copies of a die that was just built start without traces, as the die
does. -/
theorem leaves_diePool (d : Die) (n : Nat) :
    Leaves (Build.die d >>= fun node => Build.repeated node n) nodes
      fun node new calls =>
        Present (nodes ++ new) node ∧ calls = buildCalls node := by
  intro first traces m hm
  have hdie : Recorded first (nodes ++ [.die m.fresh d]) traces m.numbered := by
    apply hm.node (.die m.fresh d)
    · intro child hchild
      exact absurd hchild List.not_mem_nil
    · rfl
  have hpool := Build.recorded_repeated hdie (present_new nodes _) n
  have htraces :
      tracesAfter traces (Build.repeatedEvents (.die m.fresh d) n m.numbered) =
      traces := by
    unfold Build.repeatedEvents
    split
    · apply tracesAfter_copyEvents
      · exact (hm.blank m.fresh le_rfl).2
      · intro id hid
        exact (hm.blank id ((Nat.le_succ m.fresh).trans hid)).2
    · rfl
  rw [htraces, List.append_assoc] at hpool
  have hrun :
      (ExceptT.run (Build.die d >>= fun node => Build.repeated node n)).run m =
        (ExceptT.run (Build.repeated (.die m.fresh d) n)).run m.numbered := rfl
  rw [Building.outcome, hrun]
  refine ⟨_, [], ?_, ?_, hpool⟩
  · intro pool hok
    have hok' :
        (Build.repeated (.die m.fresh d) n).outcome m.numbered = .ok pool := hok
    obtain ⟨-, id, ids, -, rfl⟩ :=
      (Build.accepts_repeated _ _).of_returns ⟨_, hok'⟩
    rw [hok']
    constructor
    · rw [← List.singleton_append, returned, ← List.append_assoc]
      exact present_new _ _
    · exact (allBuildCalls_dice d ids).symm
  · intro call hcall
    exact absurd hcall List.not_mem_nil

theorem leaves_dice (s : Text) :
    Leaves (dice whole s) nodes (IsBuilt nodes) := by
  apply leaves_scanned
  rintro ⟨⟨n, d⟩, rest⟩
  by_cases hone : n = 1
  · simp only [if_pos hone]
    apply ((Build.builds_die d).leaves (Build.accepts_die d)).finish
    rintro node new calls ⟨⟨id, rfl⟩, rfl, rfl⟩
    exact ⟨present_new nodes _, rfl⟩
  · simp only [if_neg hone, ← bind_assoc]
    apply (leaves_diePool d n).finish
    intro node new calls h
    exact h

/-! ## Terms -/

theorem leaves_group
    {inner : Option (Reader Node)}
    (hinner :
      ∀ expression ∈ inner, ∀ s, Leaves (expression s) nodes (IsBuilt nodes))
    (s : Text) :
    Leaves (group whole inner s) nodes (IsBuilt nodes) := by
  by_cases hparen : ∃ more, s = '(' :: more
  · obtain ⟨more, rfl⟩ := hparen
    cases inner with
    | none => exact leaves_throw _
    | some expression =>
        apply (hinner expression rfl more).bind
        rintro ⟨node, rest⟩ new calls h
        apply leaves_scanned
        intro p
        apply leaves_pure
        rw [List.append_nil, List.append_nil]
        exact h
  · have hdice : ∀ more, s ≠ '(' :: more := fun more h => hparen ⟨more, h⟩
    rw [group_eq_dice whole hdice]
    exact leaves_dice s

section Modifiers

variable {node : Node}

theorem leaves_selected
    (hnode : Present nodes node)
    (s : Text) :
    Leaves (selected tracer node s) nodes (IsExtended nodes node) := by
  apply leaves_scanned
  rintro ⟨selection?, rest⟩
  cases selection? with
  | none => exact leaves_self hnode rest
  | some selection =>
      apply leaves_scanned
      rintro ⟨threshold, rest⟩
      apply Builds.extends (Build.builds_dropKeep (present_some hnode) _ _ _)
        (Build.accepts_dropKeep _ _ _ _)
      rintro _ ⟨id, rfl⟩
      exact (List.append_nil _).symm

theorem leaves_exploded
    (hnode : Present nodes node)
    (s : Text) :
    Leaves (exploded tracer node s) nodes (IsExtended nodes node) := by
  by_cases hmark : ∃ more, s = '!' :: more
  · obtain ⟨more, rfl⟩ := hmark
    apply leaves_scanned
    rintro ⟨threshold, rest⟩
    apply Builds.extends (Build.builds_explode hnode _ _ _)
      (Build.accepts_explode _ _ _ _)
    rintro _ ⟨id, rfl⟩
    rfl
  · rw [exploded_none fun more h => hmark ⟨more, h⟩]
    exact leaves_self hnode s

theorem leaves_suffixed
    (hnode : Present nodes node)
    (allowed : Nat) (s : Text) :
    Leaves (suffixed tracer whole allowed node s) nodes
      (IsExtended nodes node) := by
  induction allowed generalizing nodes node s with
  | zero =>
      rw [suffixed]
      apply leaves_scanned
      rintro ⟨_ | ⟨op, n⟩, rest⟩
      · exact leaves_self hnode rest
      · exact leaves_throw _
  | succ allowed ih =>
      rw [suffixed]
      apply leaves_scanned
      rintro ⟨_ | ⟨op, n⟩, rest⟩
      · exact leaves_self hnode rest
      · apply ((Build.builds_arithmetic (present_some hnode) op n tracer).leaves
          (Build.accepts_arithmetic node op n tracer)).bind
        rintro built new calls ⟨⟨id, rfl⟩, rfl, rfl⟩
        apply (ih (present_new nodes _) rest).weaken
        intro r more calls' h q hq
        obtain ⟨hpresent, hcalls⟩ := h q hq
        constructor
        · rw [← List.append_assoc]
          exact hpresent
        · exact hcalls

end Modifiers

theorem leaves_term
    {group : Reader Node} {s : Text}
    (hgroup : Leaves (group s) nodes (IsBuilt nodes)) :
    Leaves (term tracer whole group s) nodes (IsBuilt nodes) := by
  have hterm : term tracer whole group s =
      (group s >>= fun p => selected tracer p.1 p.2) >>=
        (fun p => exploded tracer p.1 p.2) >>=
        fun p => suffixed tracer whole mostSuffixes p.1 p.2 := by
    simp only [term, bind_assoc]
  rw [hterm]
  apply leaves_behind
  · apply leaves_behind
    · apply leaves_behind hgroup
      intro others p hp
      exact leaves_selected hp p.2
    · intro others p hp
      exact leaves_exploded hp p.2
  · intro others p hp
    exact leaves_suffixed hp mostSuffixes p.2

/-! ## Sums -/

theorem leaves_terms
    {term : Reader Node}
    (hterm : ∀ {others} s, Leaves (term s) others (IsBuilt others))
    (limit : Nat) (s : Text) :
    Leaves (terms term limit s) nodes fun p new calls =>
      (∀ item ∈ p.1, Present (nodes ++ new) item) ∧
      calls = allBuildCalls p.1 := by
  induction limit generalizing nodes s with
  | zero =>
      apply leaves_pure
      exact ⟨fun item hitem => absurd hitem List.not_mem_nil, rfl⟩
  | succ limit ih =>
      rw [terms]
      apply (hterm s).bind
      rintro ⟨node, rest⟩ new calls ⟨hpresent, rfl⟩
      have hlast :
          Leaves (pure ([node], rest)) (nodes ++ new) fun p more calls' =>
            (∀ item ∈ p.1, Present (nodes ++ (new ++ more)) item) ∧
              buildCalls node ++ calls' = allBuildCalls p.1 := by
        apply leaves_pure
        rw [List.append_nil]
        constructor
        · exact hpresent.singleton
        · rfl
      dsimp only
      split
      · split
        · rename_i more _
          apply (ih more).finish
          rintro ⟨others, rest⟩ more calls' ⟨hothers, rfl⟩
          rw [List.append_assoc] at hothers
          constructor
          · intro item hitem
            rcases List.mem_cons.mp hitem with rfl | hitem
            · rw [← List.append_assoc]
              exact present_append_iff.mpr (Or.inl hpresent)
            · exact hothers item hitem
          · rfl
        · exact hlast
      · exact hlast

theorem leaves_sum
    {term : Reader Node}
    (hterm : ∀ {others} s, Leaves (term s) others (IsBuilt others))
    (s : Text) :
    Leaves (sum term s) nodes (IsBuilt nodes) := by
  rw [sum]
  apply (leaves_terms hterm _ s).bind
  rintro ⟨items, rest⟩ new calls ⟨hitems, rfl⟩
  have hpool :
      Leaves (Build.pool (items.map some) >>= fun node => pure (node, rest))
        (nodes ++ new) fun p more calls' =>
          IsBuilt nodes p (new ++ more) (allBuildCalls items ++ calls') := by
    have hsome : ∀ node, some node ∈ items.map some →
        Present (nodes ++ new) node := by
      intro node hnode
      obtain ⟨item, hitem, ⟨⟩⟩ := List.mem_map.mp hnode
      exact hitems node hitem
    apply ((Build.builds_pool hsome).leaves (Build.accepts_pool items)).finish
    rintro _ _ _ ⟨⟨id, rfl⟩, rfl, rfl⟩
    constructor
    · rw [← List.append_assoc]
      exact present_new _ _
    · rw [buildCalls, List.append_nil]
  match items with
  | [node] =>
      apply leaves_pure
      rw [List.append_nil, List.append_nil]
      constructor
      · exact hitems node (List.mem_singleton_self node)
      · rw [allBuildCalls, allBuildCalls, List.append_nil]
  | [] => exact hpool
  | first :: second :: others => exact hpool

theorem leaves_expression (depth : Nat) (s : Text) :
    Leaves (expression tracer whole depth s) nodes (IsBuilt nodes) := by
  induction depth generalizing nodes s with
  | zero =>
      apply leaves_sum
      intro others s
      apply leaves_term
      apply leaves_group
      rintro _ ⟨⟩
  | succ depth ih =>
      apply leaves_sum
      intro others s
      apply leaves_term
      apply leaves_group
      rintro _ ⟨⟩ s
      exact ih s

end Parse

/-- Reading a text makes the calls of building the tree that it returns. -/
theorem leaves_parse (nodes : List Node) (tracer : Tracer) (text : Text) :
    Building.Leaves (parse tracer text) nodes fun node new calls =>
      Node.Present (nodes ++ new) node ∧ calls = node.buildCalls := by
  rw [parse, Parse.wholeText]
  split
  · exact Building.leaves_throw _
  · apply (Parse.leaves_expression deepestNesting text.normalize).bind
    rintro ⟨node, rest⟩ new calls h
    dsimp only
    split
    · apply Building.leaves_pure
      rw [List.append_nil, List.append_nil]
      exact h
    · exact Building.leaves_throw _

end DiceNotation
