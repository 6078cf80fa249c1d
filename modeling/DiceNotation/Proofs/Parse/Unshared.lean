import DiceNotation.Proofs.Node.Identity
import DiceNotation.Proofs.Parse.Reads

/-!
# Trees without shared nodes

A node may be an item of several pools, or the inner node of several modifiers.
In a tree that was read from text no node stands at two places: every node is
built under an identity of its own and then used once.
-/

namespace DiceNotation

namespace Node

mutual

/-- The identities of all places in the tree of the node. -/
def ids : Node → List NodeId
  | die id _ => [id]
  | pool id items => id :: allIds items
  | arithmetic id _ _ _ inner => id :: ids inner
  | dropKeep id _ _ _ inner => id :: ids inner
  | explode id _ _ _ inner => id :: ids inner

/-- The identities of all places in the trees of nodes. -/
def allIds : List Node → List NodeId
  | [] => []
  | node :: rest => ids node ++ allIds rest

end

/-- No node stands at two places of the tree. -/
def Unshared (node : Node) : Prop :=
  node.ids.Nodup

theorem ids_eq (node : Node) : node.ids = node.id :: allIds node.children := by
  cases node <;> simp [ids, allIds, children, id]

theorem allIds_append (nodes others : List Node) :
    allIds (nodes ++ others) = allIds nodes ++ allIds others := by
  induction nodes with
  | nil => rfl
  | cons node rest ih =>
      rw [List.cons_append, allIds, allIds, ih, List.append_assoc]

theorem allIds_singleton (node : Node) : allIds [node] = node.ids := by
  rw [allIds, allIds, List.append_nil]

theorem mem_allIds_iff {nodes : List Node} {i : NodeId} :
    i ∈ allIds nodes ↔ ∃ node ∈ nodes, i ∈ node.ids := by
  induction nodes with
  | nil => simp [allIds]
  | cons node rest ih => simp [allIds, ih]

/-- The identities are those of the parts of the node. -/
theorem mem_ids_of_occurs
    {part node : Node}
    (h : Occurs part node) :
    part.id ∈ node.ids := by
  induction h with
  | here =>
      rw [ids_eq]
      exact List.mem_cons_self
  | @inside child node _ hchild ih =>
      rw [ids_eq]
      exact List.mem_cons_of_mem _ (mem_allIds_iff.mpr ⟨child, hchild, ih⟩)

theorem allIds_perm
    {nodes others : List Node}
    (h : nodes.Perm others) :
    (allIds nodes).Perm (allIds others) := by
  induction h with
  | nil => exact .refl _
  | cons node _ ih =>
      rw [allIds, allIds]
      exact ih.append_left _
  | swap node other rest =>
      rw [allIds, allIds, allIds, allIds, ← List.append_assoc,
        ← List.append_assoc]
      exact List.perm_append_comm.append_right _
  | trans _ _ ih ih' => exact ih.trans ih'

theorem nodup_ids_of_mem
    {nodes : List Node} {node : Node}
    (h : (allIds nodes).Nodup)
    (hnode : node ∈ nodes) :
    node.ids.Nodup := by
  induction nodes with
  | nil => exact absurd hnode List.not_mem_nil
  | cons first rest ih =>
      rw [allIds] at h
      rcases List.mem_cons.mp hnode with rfl | hnode
      · exact h.of_append_left
      · exact ih h.of_append_right hnode

namespace Unshared

variable {inner node : Node}

theorem nodup_children
    (h : node.Unshared) :
    (allIds node.children).Nodup := by
  rw [Unshared, ids_eq] at h
  exact h.of_cons

theorem child
    (h : node.Unshared)
    (hinner : inner ∈ node.children) :
    inner.Unshared :=
  nodup_ids_of_mem h.nodup_children hinner

/-- A node stands nowhere below itself. -/
theorem id_not_mem
    (h : node.Unshared) :
    node.id ∉ allIds node.children := by
  rw [Unshared, ids_eq, List.nodup_cons] at h
  exact h.1

end Unshared

/-- Together, no node stands at two places in the trees of these nodes, and all
their identities were handed out. -/
structure Owned (nodes : List Node) (m : Memory) : Prop where
  nodup : (allIds nodes).Nodup
  known : ∀ i ∈ allIds nodes, i < m.fresh

namespace Owned

variable {nodes others : List Node} {m m' : Memory}

theorem perm
    (h : Owned nodes m)
    (hperm : nodes.Perm others) :
    Owned others m where
  nodup := (allIds_perm hperm).nodup_iff.mp h.nodup
  known i hi := h.known i ((allIds_perm hperm).mem_iff.mpr hi)

/-- Some nodes may be put aside. -/
theorem drop
    (h : Owned (nodes ++ others) m) :
    Owned nodes m := by
  obtain ⟨hnodup, hknown⟩ := h
  rw [allIds_append] at hnodup hknown
  exact ⟨hnodup.of_append_left,
    fun i hi => hknown i (List.mem_append_left _ hi)⟩

/-- A node that gets the next identity takes the place of its children. -/
theorem node
    (node : Node)
    (h : Owned (node.children ++ others) m)
    (hid : node.id = m.fresh)
    (hfresh : m'.fresh = m.fresh + 1) :
    Owned (node :: others) m' := by
  have hids : allIds (node :: others) =
      m.fresh :: allIds (node.children ++ others) := by
    rw [allIds, ids_eq, hid, allIds_append, List.cons_append]
  constructor
  · rw [hids, List.nodup_cons]
    exact ⟨fun hmem => (h.known _ hmem).false, h.nodup⟩
  · rw [hids, List.forall_mem_cons, hfresh]
    exact ⟨Nat.lt_succ_self _,
      fun i hi => (h.known i hi).trans (Nat.lt_succ_self _)⟩

end Owned
end Node

/-! ## Evaluations hand out no identities -/

namespace Evaluation

variable {α β : Type}

/-- The evaluation hands out no identity. -/
def KeepsFresh (x : Evaluation α) : Prop :=
  ∀ m, (x.run m).2.fresh = m.fresh

theorem keepsFresh_pure (a : α) : KeepsFresh (pure a) :=
  fun _ => rfl

theorem KeepsFresh.bind
    {x : Evaluation α} {f : α → Evaluation β}
    (hx : KeepsFresh x)
    (hf : ∀ a, KeepsFresh (f a)) :
    KeepsFresh (x >>= f) := by
  intro m
  have hrun : (x >>= f).run m = (f (x.run m).1).run (x.run m).2 := rfl
  rw [hrun, hf, hx]

theorem KeepsFresh.settle
    {x : Evaluation Reading}
    (hx : KeepsFresh x)
    (node : NodeId) :
    KeepsFresh (Memory.settle node x) :=
  fun m => hx { m with traces := m.traces.set node [] }

theorem keepsFresh_report (node : Node) (tracer : Tracer)
    (method : Method) (r : Reading) :
    KeepsFresh (do node.report tracer method r; return r) :=
  fun _ => rfl

end Evaluation

namespace Node

open Evaluation

theorem keepsFresh_boundEach
    {nodes : List Node} {e : Extreme}
    (h : ∀ node ∈ nodes, KeepsFresh (node.bound e)) :
    KeepsFresh (boundEach nodes e) := by
  induction nodes with
  | nil => exact keepsFresh_pure []
  | cons node rest ih =>
      rw [List.forall_mem_cons] at h
      exact h.1.bind fun _ => (ih h.2).bind fun _ => keepsFresh_pure _

theorem keepsFresh_bound (node : Node) (e : Extreme) :
    KeepsFresh (node.bound e) := by
  induction node using induction_members generalizing e with
  | die id d =>
      rw [bound]
      exact (keepsFresh_pure _).settle id
  | pool id items ih =>
      rw [bound]
      have hitems := keepsFresh_boundEach fun item hitem => ih item hitem e
      exact (hitems.bind fun _ => keepsFresh_pure _).settle id
  | arithmetic id tracer op operand inner ih =>
      rw [bound]
      refine ((ih .least).bind fun _ =>
        (ih .greatest).bind fun _ => ?_).settle id
      exact keepsFresh_report _ _ _ _
  | dropKeep id tracer selection threshold inner _ ih =>
      rw [bound_dropKeep]
      have hmembers :=
        keepsFresh_boundEach fun member hmember => ih member hmember e
      exact (hmembers.bind fun _ => keepsFresh_report _ _ _ _).settle id
  | explode id tracer comparator threshold inner _ ih =>
      cases e with
      | least =>
          rw [bound_explode_least]
          have hmembers :=
            keepsFresh_boundEach fun member hmember => ih member hmember .least
          exact (hmembers.bind fun _ => keepsFresh_report _ _ _ _).settle id
      | greatest =>
          rw [bound_explode_greatest]
          exact (keepsFresh_report _ _ _ _).settle id

theorem keepsFresh_allExactBounds
    {nodes : List Node}
    (h : ∀ node ∈ nodes, KeepsFresh node.hasExactBounds) :
    KeepsFresh (allExactBounds nodes) := by
  induction nodes with
  | nil => exact keepsFresh_pure true
  | cons node rest ih =>
      rw [List.forall_mem_cons] at h
      refine h.1.bind fun exact => ?_
      cases exact with
      | true => exact ih h.2
      | false => exact keepsFresh_pure false

theorem keepsFresh_hasExactBounds (node : Node) :
    KeepsFresh node.hasExactBounds := by
  induction node using induction_members with
  | die => exact keepsFresh_pure true
  | pool id items ih => exact keepsFresh_allExactBounds ih
  | arithmetic id tracer op operand inner ih =>
      rw [hasExactBounds]
      refine ih.bind fun exact => ?_
      split
      · exact keepsFresh_pure false
      · split
        · exact keepsFresh_pure true
        · refine (keepsFresh_bound inner .least).bind fun low => ?_
          split
          · exact keepsFresh_pure true
          · exact (keepsFresh_bound inner .greatest).bind fun _ =>
              keepsFresh_pure _
  | dropKeep id tracer selection threshold inner ih _ => exact ih
  | explode => exact keepsFresh_pure false

end Node

/-! ## Building uses every node once -/

namespace Building

open Node

variable {α β : Type} {before : List Node} {P : α → List Node}
  {Q : β → List Node}

/-- Out of some nodes, and whatever others there are besides, building makes
nodes that share nothing if those did not. -/
def Passes (b : Building α) (before : List Node)
    (after : α → List Node) : Prop :=
  ∀ ⦃others m m' a⦄, Owned (before ++ others) m →
    (ExceptT.run b).run m = (.ok a, m') →
    Owned (after a ++ others) m'

theorem passes_pure
    {a : α}
    (h : before.Perm (P a)) :
    Passes (pure a) before P := by
  rintro others m m' a' howned ⟨⟩
  exact howned.perm (h.append_right others)

theorem passes_throw (e : Error) : Passes (throw e : Building α) before P := by
  rintro others m m' a - ⟨⟩

theorem Passes.bind
    {b : Building α} {f : α → Building β}
    (hb : Passes b before P)
    (hf : ∀ a, Passes (f a) (P a) Q) :
    Passes (b >>= f) before Q := by
  intro others m m' c howned hrun
  rw [run_bind] at hrun
  rcases hfirst : (ExceptT.run b).run m with ⟨e | a, after⟩
  · rw [hfirst] at hrun
    cases hrun
  · rw [hfirst] at hrun
    exact hf a (hb howned hfirst) hrun

/-- Nodes that are kept for later. -/
theorem Passes.keep
    {b : Building α}
    (h : Passes b before P)
    (kept : List Node) :
    Passes b (before ++ kept) fun a => P a ++ kept := by
  intro others m m' a howned hrun
  rw [List.append_assoc] at howned ⊢
  exact h howned hrun

theorem Passes.weaken
    {b : Building α} {P' : α → List Node}
    (h : Passes b before P)
    (hP : ∀ a, ∃ rest, (P a).Perm (P' a ++ rest)) :
    Passes b before P' := by
  intro others m m' a howned hrun
  obtain ⟨rest, hrest⟩ := hP a
  have hperm : (P a ++ others).Perm ((P' a ++ others) ++ rest) := by
    rw [List.append_assoc]
    refine (hrest.append_right others).trans ?_
    rw [List.append_assoc]
    exact List.perm_append_comm.append_left _
  exact ((h howned hrun).perm hperm).drop

/-- A constructor whose result gets the next identity. -/
theorem passes_node
    {b : Building Node}
    (node : NodeId → Node)
    (hrun : ∀ {m m' built}, (ExceptT.run b).run m = (.ok built, m') →
      built = node m.fresh ∧ m'.fresh = m.fresh + 1)
    (hid : ∀ id, (node id).id = id)
    (hchildren : ∀ id, (node id).children = before) :
    Passes b before fun built => [built] := by
  intro others m m' built howned hbuilt
  obtain ⟨rfl, hfresh⟩ := hrun hbuilt
  rw [← hchildren m.fresh] at howned
  exact Owned.node (node m.fresh) howned (hid m.fresh) hfresh

theorem run_newNode_bind
    {node : NodeId → Node} {m m' : Memory} {built : Node}
    (h : (ExceptT.run (Build.newNode >>= fun id => pure (node id))).run
      m = (.ok built, m')) :
    built = node m.fresh ∧ m'.fresh = m.fresh + 1 := by
  cases h
  exact ⟨rfl, rfl⟩

end Building

namespace Build

open Building Node

variable {inner : Node} {tracer : Tracer}

theorem passes_pool (items : List Node) :
    Passes (pool (items.map some)) items fun built => [built] := by
  have hitems : (items.map some).mapM id = some items := by
    induction items with
    | nil => rfl
    | cons item rest ih => simp [ih]
  rw [pool, hitems]
  exact passes_node (fun id => .pool id items) run_newNode_bind (fun _ => rfl)
    fun _ => rfl

theorem passes_arithmetic (inner : Node) (op : Operator)
    (operand : Int) (tracer : Tracer) :
    Passes (arithmetic (some inner) op operand tracer) [inner]
      fun built => [built] := by
  dsimp only [arithmetic]
  split
  · exact passes_throw _
  · split
    · exact passes_throw _
    · exact passes_node (fun id => .arithmetic id tracer op operand.toNat inner)
        run_newNode_bind (fun _ => rfl) fun _ => rfl

theorem passes_dropKeep
    (inner : Node) (selection : Selection) (threshold : Int) (tracer : Tracer) :
    Passes (dropKeep (some inner) selection threshold tracer) [inner]
      fun built => [built] := by
  dsimp only [dropKeep]
  split
  · exact passes_throw _
  · split
    · exact passes_throw _
    · split
      · exact passes_throw _
      · exact passes_node
          (fun id => .dropKeep id tracer selection threshold.toNat inner)
          run_newNode_bind (fun _ => rfl) fun _ => rfl

/-- Building hands out no identity, whether or not it is accepted. -/
def KeepsFresh {α : Type} (b : Building α) : Prop :=
  ∀ m, ((ExceptT.run b).run m).2.fresh = m.fresh

theorem KeepsFresh.bind
    {α β : Type} {b : Building α} {f : α → Building β}
    (hb : KeepsFresh b)
    (hf : ∀ a, KeepsFresh (f a)) :
    KeepsFresh (b >>= f) := by
  intro m
  have hfirst := hb m
  rw [run_bind]
  rcases hrun : (ExceptT.run b).run m with ⟨e | a, after⟩
  · rw [hrun] at hfirst
    exact hfirst
  · rw [hrun] at hfirst
    exact (hf a after).trans hfirst

/-- Behind a check, what is built without it is built. -/
theorem KeepsFresh.check
    {α β : Type} {b : Building α} {f : α → Building β} {c : β}
    (hb : KeepsFresh b)
    (hf : ∀ a {m m' r}, (ExceptT.run (f a)).run m = (.ok r, m') →
      r = c ∧ m'.fresh = m.fresh)
    {m m' : Memory} {r : β}
    (h : (ExceptT.run (b >>= f)).run m = (.ok r, m')) :
    r = c ∧ m'.fresh = m.fresh := by
  have hfirst := hb m
  rw [run_bind] at h
  rcases hrun : (ExceptT.run b).run m with ⟨e | a, after⟩
  · rw [hrun] at h
    cases h
  · rw [hrun] at h hfirst
    obtain ⟨hr, hfresh⟩ := hf a h
    exact ⟨hr, hfresh.trans hfirst⟩

theorem keepsFresh_evaluation
    {α : Type} {x : Evaluation α}
    (h : x.KeepsFresh) :
    KeepsFresh (x : Building α) :=
  h

theorem keepsFresh_requireExactBounds (members : List Node) :
    KeepsFresh (requireExactBounds members) := by
  induction members with
  | nil => exact fun _ => rfl
  | cons member rest ih =>
      rw [requireExactBounds]
      refine (keepsFresh_evaluation
        (keepsFresh_hasExactBounds member)).bind fun exact => ?_
      cases exact with
      | true => exact ih
      | false => exact fun _ => rfl

theorem keepsFresh_requireEnd
    (comparator : Comparator) (threshold : Option Int)
    (node : Node) (text : Text) :
    KeepsFresh (requireEnd comparator threshold node text) := by
  refine (keepsFresh_evaluation
    (keepsFresh_bound node .least)).bind fun low => ?_
  refine (keepsFresh_evaluation
    (keepsFresh_bound node .greatest)).bind fun high => ?_
  dsimp only
  split <;> exact fun _ => rfl

theorem keepsFresh_requireEnds
    (comparator : Comparator) (threshold : Option Int) (members : List Node) :
    KeepsFresh (requireEnds comparator threshold members) := by
  induction members with
  | nil => exact fun _ => rfl
  | cons member rest ih =>
      exact (keepsFresh_requireEnd comparator threshold
        member member.render).bind fun _ => ih

theorem passes_explode
    (inner : Node) (comparator : Comparator)
    (threshold : Option Int) (tracer : Tracer) :
    Passes (explode (some inner) comparator threshold tracer) [inner]
      fun built => [built] := by
  dsimp only [explode]
  split
  · exact passes_throw _
  · refine passes_node (fun id => .explode id tracer comparator threshold inner)
      (fun {m m' built} hrun => ?_) (fun _ => rfl) fun _ => rfl
    rw [run_bind] at hrun
    refine (keepsFresh_requireExactBounds _).check (fun _ => ?_) hrun
    refine (keepsFresh_requireEnd _ _ _ _).check fun _ => ?_
    refine (keepsFresh_requireEnds _ _ _).check fun _ => ?_
    rintro m m' r ⟨⟩
    exact ⟨rfl, rfl⟩

/-- Every copy of a die is a die of its own. -/
theorem owned_copies
    {others : List Node} {m : Memory}
    (h : Owned others m)
    (id : NodeId) (d : Die) (n : Nat) :
    Owned (((copies (.die id d) n).run m).1 ++ others)
      ((copies (.die id d) n).run m).2 := by
  induction n generalizing others m with
  | zero => exact h
  | succ n ih =>
      have hrun : (copies (.die id d) (n + 1)).run m =
          (((copy (.die id d)).run m).1 ::
              ((copies (.die id d) n).run ((copy (.die id d)).run m).2).1,
            ((copies (.die id d) n).run ((copy (.die id d)).run m).2).2) := rfl
      have hfirst : Owned (((copy (.die id d)).run m).1 :: others)
          ((copy (.die id d)).run m).2 :=
        Owned.node (.die m.fresh d) h rfl rfl
      rw [hrun]
      exact (ih hfirst).perm List.perm_middle

theorem passes_repeated (id : NodeId) (d : Die) (count : Int)
    (before : List Node) :
    Passes (repeated (.die id d) count) before
      fun built => built :: before := by
  unfold repeated
  split
  · exact passes_throw _
  · split
    · exact passes_throw _
    · have hcopies :
          Passes (copies (.die id d) count.toNat : Evaluation (List Node))
            before fun items => items ++ before := by
        rintro others m m' items howned hrun
        have hitems := owned_copies howned id d count.toNat
        cases hrun
        rw [List.append_assoc]
        exact hitems
      refine hcopies.bind fun items => ?_
      exact (passes_node (fun id => .pool id items) run_newNode_bind
        (fun _ => rfl) fun _ => rfl).keep before

end Build

/-! ## Readers -/

namespace Parse

open Building Node

variable {tracer : Tracer} {whole : Text}

/-- A node that a reader returns took the place of some nodes. -/
def Uses (before : List Node) (b : Building (Node × Text)) : Prop :=
  Passes b before fun p => [p.1]

theorem passes_scanned_bind
    {α β : Type} {result : Except SyntaxFault α} {f : α → Building β}
    {before : List Node} {P : β → List Node}
    (hf : ∀ a, Passes (f a) before P) :
    Passes (scanned result >>= f) before P := by
  cases result with
  | ok a => exact hf a
  | error fault => exact passes_throw _

theorem uses_built
    {b : Building Node} {before : List Node}
    (hb : Passes b before fun built => [built])
    (rest : Text) :
    Uses before (b >>= fun built => pure (built, rest)) :=
  hb.bind fun _ => passes_pure (.refl _)

/-- The die of which there are several copies is put aside. -/
theorem uses_dice (s : Text) : Uses [] (dice whole s) := by
  apply passes_scanned_bind
  rintro ⟨⟨n, d⟩, rest⟩
  intro others m m' p howned hrun
  have hdie :
      Owned ([.die m.fresh d] ++ others) { m with fresh := m.fresh + 1 } :=
    Owned.node (.die m.fresh d) howned rfl rfl
  have hbehind : Uses [.die m.fresh d]
      (if n = 1 then
        pure (.die m.fresh d, rest)
      else do
        return (← Build.repeated (.die m.fresh d) n, rest)) := by
    split
    · exact passes_pure (.refl _)
    · refine uses_built ?_ rest
      exact (Build.passes_repeated m.fresh d n
        [.die m.fresh d]).weaken fun built => ⟨[.die m.fresh d], .refl _⟩
  exact hbehind hdie hrun

theorem uses_group
    {inner : Option (Reader Node)}
    (hinner : ∀ expression ∈ inner, ∀ s, Uses [] (expression s))
    (s : Text) :
    Uses [] (group whole inner s) := by
  by_cases hparen : ∃ more, s = '(' :: more
  · obtain ⟨more, rfl⟩ := hparen
    cases inner with
    | none => exact passes_throw _
    | some expression =>
        refine (hinner expression rfl more).bind fun p => ?_
        exact passes_scanned_bind fun _ => passes_pure (.refl _)
  · rw [group_eq_dice whole fun more h => hparen ⟨more, h⟩]
    exact uses_dice s

theorem uses_selected (node : Node) (s : Text) :
    Uses [node] (selected tracer node s) := by
  apply passes_scanned_bind
  rintro ⟨selection?, rest⟩
  cases selection? with
  | none => exact passes_pure (.refl _)
  | some selection =>
      apply passes_scanned_bind
      rintro ⟨threshold, rest⟩
      exact uses_built (Build.passes_dropKeep node _ _ _) rest

theorem uses_exploded (node : Node) (s : Text) :
    Uses [node] (exploded tracer node s) := by
  by_cases hmark : ∃ more, s = '!' :: more
  · obtain ⟨more, rfl⟩ := hmark
    apply passes_scanned_bind
    rintro ⟨threshold, rest⟩
    exact uses_built (Build.passes_explode node _ _ _) rest
  · rw [exploded_none fun more h => hmark ⟨more, h⟩]
    exact passes_pure (.refl _)

theorem uses_suffixed (allowed : Nat) (node : Node) (s : Text) :
    Uses [node] (suffixed tracer whole allowed node s) := by
  induction allowed generalizing node s with
  | zero =>
      rw [suffixed]
      apply passes_scanned_bind
      rintro ⟨_ | ⟨op, n⟩, rest⟩
      · exact passes_pure (.refl _)
      · exact passes_throw _
  | succ allowed ih =>
      rw [suffixed]
      apply passes_scanned_bind
      rintro ⟨_ | ⟨op, n⟩, rest⟩
      · exact passes_pure (.refl _)
      · exact (Build.passes_arithmetic node op n tracer).bind fun built =>
          ih built rest

theorem uses_term
    {group : Reader Node} {s : Text}
    (hgroup : Uses [] (group s)) :
    Uses [] (term tracer whole group s) :=
  hgroup.bind fun p => (uses_selected p.1 p.2).bind fun p =>
    (uses_exploded p.1 p.2).bind fun p => uses_suffixed mostSuffixes p.1 p.2

theorem uses_terms
    {term : Reader Node}
    (hterm : ∀ s, Uses [] (term s))
    (limit : Nat) (s : Text) :
    Passes (terms term limit s) [] fun p => p.1 := by
  induction limit generalizing s with
  | zero => exact passes_pure (.refl _)
  | succ limit ih =>
      rw [terms]
      refine (hterm s).bind fun p => ?_
      obtain ⟨node, rest⟩ := p
      dsimp only
      split
      · split
        · rename_i more _
          refine ((ih more).keep [node]).bind fun p => ?_
          exact passes_pure List.perm_append_comm
        · exact passes_pure (.refl _)
      · exact passes_pure (.refl _)

theorem uses_sum
    {term : Reader Node}
    (hterm : ∀ s, Uses [] (term s))
    (s : Text) :
    Uses [] (sum term s) := by
  rw [sum]
  refine (uses_terms hterm _ s).bind fun p => ?_
  obtain ⟨items, rest⟩ := p
  match items with
  | [node] => exact passes_pure (.refl _)
  | [] => exact uses_built (Build.passes_pool []) rest
  | first :: second :: others => exact uses_built (Build.passes_pool _) rest

theorem uses_expression (depth : Nat) (s : Text) :
    Uses [] (expression tracer whole depth s) := by
  induction depth generalizing s with
  | zero =>
      refine uses_sum (fun s => uses_term (uses_group ?_ s)) s
      rintro _ ⟨⟩
  | succ depth ih =>
      refine uses_sum (fun s => uses_term (uses_group ?_ s)) s
      rintro _ ⟨⟩
      exact ih

end Parse

theorem passes_parse (tracer : Tracer) (text : Text) :
    Building.Passes (parse tracer text) [] fun node => [node] := by
  rw [parse, Parse.wholeText]
  split
  · exact Building.passes_throw _
  · refine (Parse.uses_expression deepestNesting _).bind fun p => ?_
    obtain ⟨node, rest⟩ := p
    dsimp only
    split
    · exact Building.passes_pure (.refl _)
    · exact Building.passes_throw _

/-- In a tree that was read from text, no node stands at two places. -/
theorem Node.unshared_of_parse
    {tracer : Tracer} {text : Text} {node : Node}
    (h : (parse tracer text).Returns node) :
    node.Unshared := by
  obtain ⟨m, hm⟩ := h
  have hnone : Owned ([] ++ []) m := ⟨List.nodup_nil, List.forall_mem_nil _⟩
  have hrun : (ExceptT.run (parse tracer text)).run m =
      (.ok node, ((ExceptT.run (parse tracer text)).run m).2) := Prod.ext hm rfl
  have howned := (passes_parse tracer text hnone hrun).nodup
  rwa [List.append_nil, allIds_singleton] at howned

end DiceNotation
