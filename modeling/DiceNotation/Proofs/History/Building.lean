import DiceNotation.Proofs.History.Events
import DiceNotation.Proofs.Node.Building

/-!
# What building leaves behind

Building a node keeps the memory recorded.  Most constructors hand out an
identity and make no calls.  An explosion calls for bounds of its inner node
while it is checked, whether or not it is accepted, and copies start with the
traces of their originals.
-/

namespace DiceNotation

namespace Building

open Node

variable {α β : Type}

/-- From every recorded memory, building leads to a recorded memory: new nodes
were built and calls were made as described. -/
def Builds (b : Building α) (nodes : List Node)
    (P : Except Error α → List Node → List Call → Prop) : Prop :=
  ∀ ⦃first traces m⦄, Recorded first nodes traces m →
    ∃ new calls, P (b.outcome m) new calls ∧
      (∀ call ∈ Call.allStarted calls, Present (nodes ++ new) call.node) ∧
        Recorded first (nodes ++ new)
          (fun id => Call.traceAfter calls id (traces id))
          ((ExceptT.run b).run m).2

variable {nodes : List Node} {P : Except Error α → List Node → List Call → Prop}
  {Q : Except Error β → List Node → List Call → Prop}

/-- Without an effect on the memory, nothing is built and nothing is called. -/
theorem builds_of_run
    {b : Building α}
    (hrun : ∀ m, ((ExceptT.run b).run m).2 = m)
    (hP : ∀ m, P (b.outcome m) [] []) :
    Builds b nodes P := by
  intro first traces m h
  refine ⟨[], [], hP m, ?_, ?_⟩
  · intro call hcall
    exact absurd hcall List.not_mem_nil
  · rw [hrun, List.append_nil]
    exact h

theorem builds_pure
    {a : α}
    (h : P (.ok a) [] []) :
    Builds (pure a) nodes P :=
  builds_of_run (fun _ => rfl) fun _ => h

theorem builds_throw
    {e : Error}
    (h : P (.error e) [] []) :
    Builds (throw e : Building α) nodes P :=
  builds_of_run (fun _ => rfl) fun _ => h

theorem Builds.weaken
    {b : Building α} {P' : Except Error α → List Node → List Call → Prop}
    (h : Builds b nodes P)
    (hPP' : ∀ r new calls, P r new calls → P' r new calls) :
    Builds b nodes P' := by
  intro first traces m hm
  obtain ⟨new, calls, hP, hrest⟩ := h hm
  exact ⟨new, calls, hPP' _ _ _ hP, hrest⟩

theorem Builds.bind
    {b : Building α} {f : α → Building β}
    (hb : Builds b nodes P)
    (hf : ∀ a new calls, P (.ok a) new calls →
      Builds (f a) (nodes ++ new)
        fun r more calls' => Q r (new ++ more) (calls ++ calls'))
    (herror : ∀ e new calls, P (.error e) new calls → Q (.error e) new calls) :
    Builds (b >>= f) nodes Q := by
  intro first traces m hm
  obtain ⟨new, calls, hP, hpresent, hrecorded⟩ := hb hm
  rw [run_bind, outcome_bind]
  unfold outcome at hP
  rcases hrun : (ExceptT.run b).run m with ⟨e | a, after⟩
  · rw [hrun] at hP hrecorded
    exact ⟨new, calls, herror e new calls hP, hpresent, hrecorded⟩
  · rw [hrun] at hP hrecorded
    obtain ⟨more, calls', hQ, hpresent', hrecorded'⟩ :=
      hf a new calls hP hrecorded
    rw [List.append_assoc] at hpresent' hrecorded'
    refine ⟨new ++ more, calls ++ calls', hQ, ?_, ?_⟩
    · intro call hcall
      rw [Call.allStarted_append] at hcall
      rcases List.mem_append.mp hcall with hcall | hcall
      · rw [← List.append_assoc, present_append_iff]
        exact Or.inl (hpresent call hcall)
      · exact hpresent' call hcall
    · apply hrecorded'.congr
      intro id
      rw [Call.traceAfter_append]

/-- The node that building returned, if it returned one. -/
def returned : Except Error Node → List Node
  | .ok node => [node]
  | .error _ => []

/-- At most the returned node was built, and exactly these calls were made. -/
def Makes (made : List Call) (r : Except Error Node) (new : List Node)
    (calls : List Call) : Prop :=
  new = returned r ∧ calls = made

/-- A node that gets the next identity and has known children. -/
theorem builds_node
    {b : Building Node}
    (node : NodeId → Node)
    (hrun : ∀ m, (ExceptT.run b).run m = (.ok (node m.fresh), m.numbered))
    (hid : ∀ id, (node id).id = id)
    (hchildren : ∀ id, ∀ child ∈ (node id).children, Present nodes child) :
    Builds b nodes (Makes []) := by
  intro first traces m h
  rw [outcome, hrun]
  refine ⟨[node m.fresh], [], ⟨rfl, rfl⟩, ?_, ?_⟩
  · intro call hcall
    exact absurd hcall List.not_mem_nil
  · exact h.node (node m.fresh) (hchildren m.fresh) (hid m.fresh)

theorem builds_refused
    {b : Building Node} {e : Error}
    (hrun : ∀ m, (ExceptT.run b).run m = (.error e, m)) :
    Builds b nodes (Makes []) := by
  apply builds_of_run
  · intro m
    rw [hrun]
  · intro m
    rw [outcome, hrun]
    exact ⟨rfl, rfl⟩

/-! ## Checks -/

/-- Building always has this outcome and makes these calls. -/
def Causes (nodes : List Node) (b : Building α) (r : Except Error α)
    (calls : List Call) : Prop :=
  ∀ m, b.outcome m = r ∧ Caused nodes calls m ((ExceptT.run b).run m).2

theorem causes_pure (nodes : List Node) (a : α) :
    Causes nodes (pure a) (.ok a) [] :=
  fun m => ⟨rfl, .refl nodes m⟩

theorem causes_throw (nodes : List Node) (e : Error) :
    Causes nodes (throw e : Building α) (.error e) [] :=
  fun m => ⟨rfl, .refl nodes m⟩

variable {calls more : List Call}

theorem causes_evaluation
    {x : Evaluation α} {a : α}
    (hx : Evaluation.Causes nodes x calls)
    (ha : Evaluation.Gives x a) :
    Causes nodes (x : Building α) (.ok a) calls :=
  fun m => ⟨congrArg Except.ok (ha m), hx m⟩

theorem Causes.mono
    {others : List Node} {b : Building α} {r : Except Error α}
    (h : Causes nodes b r calls)
    (hsub : ∀ node ∈ nodes, Present others node) :
    Causes others b r calls :=
  fun m => ⟨(h m).1, (h m).2.mono hsub⟩

theorem Causes.bind_ok
    {b : Building α} {f : α → Building β} {a : α} {r : Except Error β}
    (hb : Causes nodes b (.ok a) calls)
    (hf : Causes nodes (f a) r more) :
    Causes nodes (b >>= f) r (calls ++ more) := by
  intro m
  obtain ⟨hfirst, hcaused⟩ := hb m
  unfold outcome at hfirst
  rw [outcome, run_bind]
  rcases hrun : (ExceptT.run b).run m with ⟨r', after⟩
  rw [hrun] at hfirst hcaused
  cases hfirst
  obtain ⟨hsecond, hcaused'⟩ := hf after
  exact ⟨hsecond, hcaused.trans hcaused'⟩

/-- What comes last may do without calls. -/
theorem Causes.finish
    {b : Building α} {f : α → Building β} {a : α} {r : Except Error β}
    (hb : Causes nodes b (.ok a) calls)
    (hf : Causes nodes (f a) r []) :
    Causes nodes (b >>= f) r calls := by
  have h := hb.bind_ok hf
  rwa [List.append_nil] at h

theorem Causes.bind_error
    {b : Building α} {e : Error}
    (hb : Causes nodes b (.error e) calls)
    (f : α → Building β) :
    Causes nodes (b >>= f) (.error e) calls := by
  intro m
  obtain ⟨hfirst, hcaused⟩ := hb m
  unfold outcome at hfirst
  rw [outcome, run_bind]
  rcases hrun : (ExceptT.run b).run m with ⟨r', after⟩
  rw [hrun] at hfirst hcaused
  cases hfirst
  exact ⟨rfl, hcaused⟩

/-- What follows a check is only done, and only makes its calls, if the check
does not refuse. -/
theorem Causes.check
    {b : Building Unit} {next : Building α} {r : Except Error Unit}
    {r' : Except Error α} {refuses : Bool}
    (hb : Causes nodes b r calls)
    (hr : r.isOk = !refuses)
    (hnext : Causes nodes next r' more) :
    Causes nodes (b >>= fun _ => next) (r.bind fun _ => r')
      (calls ++ if refuses then [] else more) := by
  cases refuses with
  | false =>
      cases r with
      | ok a => exact hb.bind_ok hnext
      | error e => cases hr
  | true =>
      cases r with
      | ok a => cases hr
      | error e =>
          rw [if_pos rfl, List.append_nil]
          exact hb.bind_error _

end Building

namespace Build

open Building Node

variable {nodes : List Node}

theorem builds_die (d : Die) : Builds (die d) nodes (Makes []) :=
  builds_node (fun id => .die id d) (fun _ => rfl)
    (fun _ => rfl) fun _ _ hchild =>
      absurd hchild List.not_mem_nil

theorem mem_of_mapM_id
    {items : List (Option Node)} {found : List Node}
    (h : items.mapM id = some found) :
    ∀ node ∈ found, some node ∈ items := by
  induction items generalizing found with
  | nil =>
      cases h
      intro node hnode
      exact absurd hnode List.not_mem_nil
  | cons item rest ih =>
      rw [List.mapM_cons] at h
      obtain ⟨first, hfirst, h⟩ := Option.bind_eq_some_iff.mp h
      obtain ⟨others, hothers, h⟩ := Option.bind_eq_some_iff.mp h
      cases h
      intro node hnode
      rcases List.mem_cons.mp hnode with rfl | hnode
      · exact List.mem_cons.mpr (Or.inl hfirst.symm)
      · exact List.mem_cons_of_mem item (ih hothers node hnode)

theorem builds_pool
    {items : List (Option Node)}
    (h : ∀ node, some node ∈ items → Present nodes node) :
    Builds (pool items) nodes (Makes []) := by
  unfold pool
  cases hitems : items.mapM id with
  | none => exact builds_refused fun _ => rfl
  | some found =>
      apply builds_node (fun id => .pool id found) (fun _ => rfl) fun _ => rfl
      intro id child hchild
      exact h child (mem_of_mapM_id hitems child hchild)

theorem builds_arithmetic
    {inner : Option Node}
    (h : ∀ node ∈ inner, Present nodes node)
    (op : Operator) (operand : Int) (tracer : Tracer) :
    Builds (arithmetic inner op operand tracer) nodes (Makes []) := by
  cases inner with
  | none => exact builds_refused fun _ => rfl
  | some inner =>
      dsimp only [arithmetic]
      split
      · exact builds_refused fun _ => rfl
      · split
        · exact builds_refused fun _ => rfl
        · apply builds_node
            (fun id => .arithmetic id tracer op operand.toNat inner)
            (fun _ => rfl) fun _ => rfl
          intro id
          exact (h inner rfl).singleton

theorem builds_dropKeep
    {inner : Option Node}
    (h : ∀ node ∈ inner, Present nodes node)
    (selection : Selection) (threshold : Int) (tracer : Tracer) :
    Builds (dropKeep inner selection threshold tracer) nodes (Makes []) := by
  cases inner with
  | none => exact builds_refused fun _ => rfl
  | some inner =>
      dsimp only [dropKeep]
      split
      · exact builds_refused fun _ => rfl
      · split
        · exact builds_refused fun _ => rfl
        · split
          · exact builds_refused fun _ => rfl
          · apply builds_node
              (fun id => .dropKeep id tracer selection threshold.toNat inner)
              (fun _ => rfl) fun _ => rfl
            intro id
            exact (h inner rfl).singleton

theorem builds_wrapInPool
    {inner : Option Node}
    (h : ∀ node ∈ inner, Present nodes node) :
    Builds (wrapInPool inner) nodes (Makes []) := by
  have hwrapped (node : Node) (hnode : Present nodes node) :
      Builds (do return Node.pool (← newNode) [node]) nodes (Makes []) := by
    apply builds_node (fun id => .pool id [node]) (fun _ => rfl) fun _ => rfl
    intro id
    exact hnode.singleton
  cases inner with
  | none => exact builds_refused fun _ => rfl
  | some inner =>
      have hinner := h inner rfl
      cases inner with
      | pool id items =>
          intro first traces m hm
          refine ⟨[.pool id items], [], ⟨rfl, rfl⟩, ?_, ?_⟩
          · intro call hcall
            exact absurd hcall List.not_mem_nil
          · apply hm.mono
            intro node hnode
            rcases List.mem_append.mp hnode with hnode | hnode
            · exact present_of_mem hnode
            · exact hinner.singleton node hnode
      | die => exact hwrapped _ hinner
      | arithmetic => exact hwrapped _ hinner
      | dropKeep => exact hwrapped _ hinner
      | explode => exact hwrapped _ hinner

/-! ## Explosions -/

theorem causes_requireExactBounds
    {members : List Node}
    (h : ∀ member ∈ members, member.Ordered) :
    ∃ r, Causes members (requireExactBounds members) r (allExactCalls members) ∧
      r.isOk = members.all isExact := by
  induction members with
  | nil => exact ⟨_, causes_pure [] (), rfl⟩
  | cons member rest ih =>
      rw [List.forall_mem_cons] at h
      obtain ⟨r, hrest, hr⟩ := ih h.2
      have hfirst :
          Causes (member :: rest) (member.hasExactBounds : Evaluation Bool)
            (.ok member.isExact) (exactCalls member) :=
        (causes_evaluation (causes_hasExactBounds h.1)
          (gives_hasExactBounds member)).mono (present_head member rest)
      rw [requireExactBounds, allExactCalls, List.all_cons]
      cases hexact : member.isExact with
      | true =>
          rw [hexact] at hfirst
          refine ⟨r, hfirst.bind_ok ?_, hr⟩
          exact hrest.mono (present_tail member rest)
      | false =>
          rw [hexact] at hfirst
          exact ⟨_, hfirst.bind_ok (causes_throw _ _), rfl⟩

theorem causes_requireEnd
    {node : Node}
    (h : node.Ordered)
    (comparator : Comparator) (threshold : Option Int) (text : Text) :
    ∃ r, Causes [node] (requireEnd comparator threshold node text) r
      (endCalls node) ∧
      r.isOk = !comparator.isEndless (node.limit threshold)
        (node.extreme .least) (node.extreme .greatest) := by
  have hlow :
      Causes [node] (node.minimum : Evaluation Int) (.ok (node.extreme .least))
        [boundCall node .least] :=
    causes_evaluation (causes_bound h .least) (gives_bound node .least)
  have hhigh : Causes [node] (node.maximum : Evaluation Int)
      (.ok (node.extreme .greatest))
      [boundCall node .greatest] :=
    causes_evaluation (causes_bound h .greatest) (gives_bound node .greatest)
  unfold requireEnd
  cases hendless :
    comparator.isEndless (node.limit threshold) (node.extreme .least)
      (node.extreme .greatest) with
  | true =>
      refine ⟨.error (.endlessExplosion text comparator (node.limit threshold)),
        hlow.bind_ok (hhigh.finish ?_), rfl⟩
      rw [limit] at hendless ⊢
      simp only [hendless, if_true]
      exact causes_throw _ _
  | false =>
      refine ⟨.ok (), hlow.bind_ok (hhigh.finish ?_), rfl⟩
      rw [limit] at hendless
      simp only [hendless, Bool.false_eq_true, if_false]
      exact causes_pure _ _

theorem causes_requireEnds
    {members : List Node}
    (h : ∀ member ∈ members, member.Ordered)
    (comparator : Comparator) (threshold : Option Int) :
    ∃ r, Causes members (requireEnds comparator threshold members) r
      (memberCalls comparator threshold members) := by
  induction members with
  | nil => exact ⟨_, causes_pure [] ()⟩
  | cons member rest ih =>
      rw [List.forall_mem_cons] at h
      obtain ⟨r, hfirst, hr⟩ :=
        causes_requireEnd h.1 comparator threshold member.render
      obtain ⟨r', hrest⟩ := ih h.2
      have hfirst := hfirst.mono (present_head member rest)
      exact ⟨_, hfirst.check hr (hrest.mono (present_tail member rest))⟩

/-- The checks of an explosion, from the exactness of the members to the end of
each of them. -/
theorem causes_checks
    {inner : Node}
    (h : inner.Ordered)
    (hmembers : inner.members ≠ [])
    (comparator : Comparator) (threshold : Option Int)
    (text : Text) (node : Node) :
    ∃ r, Causes [inner] (do
        requireExactBounds inner.members
        requireEnd comparator threshold inner text
        requireEnds comparator threshold inner.members
        return node) r (checkCalls comparator threshold inner) ∧
      (r = .ok node ∨ ∃ e, r = .error e) := by
  have hsub := present_members inner
  have hordered : ∀ member ∈ inner.members, member.Ordered :=
    fun member hmember =>
      h.of_occurs (occurs_of_mem_members hmember)
  obtain ⟨r₁, hexact, hr₁⟩ := causes_requireExactBounds hordered
  obtain ⟨r₂, hend, hr₂⟩ := causes_requireEnd h comparator threshold text
  obtain ⟨r₃, hends⟩ := causes_requireEnds hordered comparator threshold
  have hlast : ∃ r, Causes [inner] (do
      requireEnds comparator threshold inner.members
      return node) r (memberCalls comparator threshold inner.members) ∧
        (r = .ok node ∨ ∃ e, r = .error e) := by
    have hends := hends.mono hsub
    cases r₃ with
    | ok a =>
        exact ⟨.ok node, hends.finish (causes_pure [inner] node), Or.inl rfl⟩
    | error e => exact ⟨.error e, hends.bind_error _, Or.inr ⟨e, rfl⟩⟩
  obtain ⟨r, hlast, hr⟩ := hlast
  rw [← Bool.not_not (inner.members.all isExact)] at hr₁
  have hall := (hexact.mono hsub).check hr₁ (hend.check hr₂ hlast)
  refine ⟨r₁.bind fun _ => r₂.bind fun _ => r, ?_, ?_⟩
  · rw [checkCalls, if_neg hmembers]
    cases hexact : inner.members.all isExact with
    | true => rwa [hexact] at hall
    | false => rwa [hexact] at hall
  · cases r₁ with
    | error e => exact Or.inr ⟨e, rfl⟩
    | ok a =>
        cases r₂ with
        | error e => exact Or.inr ⟨e, rfl⟩
        | ok b => exact hr

/-- An explosion makes the calls of its checks, whether or not it is
accepted. -/
theorem builds_explode
    {inner : Node}
    (h : Present nodes inner)
    (comparator : Comparator) (threshold : Option Int) (tracer : Tracer) :
    Builds (explode (some inner) comparator threshold tracer) nodes
      (Makes (checkCalls comparator threshold inner)) := by
  dsimp only [explode]
  by_cases hmembers : inner.members = []
  · rw [if_pos hmembers, checkCalls, if_pos hmembers]
    exact builds_refused fun _ => rfl
  · rw [if_neg hmembers]
    intro first traces m hm
    have hordered := hm.identified.ordered_of_present h
    obtain ⟨r, hchecks, hr⟩ :=
      causes_checks hordered hmembers comparator threshold
        (Node.explode m.fresh tracer comparator threshold inner).render
        (Node.explode m.fresh tracer comparator threshold inner)
    obtain ⟨hresult, hcaused⟩ := hchecks m.numbered
    have hcaused := hcaused.mono h.singleton
    have hrecorded := hm.numbered.caused hcaused
    have hpresent {new : List Node} :
        ∀ call ∈ Call.allStarted (checkCalls comparator threshold
          inner), Present (nodes ++ new) call.node := fun call hcall =>
        present_append_iff.mpr (Or.inl (hcaused.present call hcall))
    rw [Building.outcome, run_bind]
    rcases hr with rfl | ⟨e, rfl⟩
    · refine ⟨[Node.explode m.fresh tracer comparator threshold inner], _,
        ⟨?_, rfl⟩, hpresent, ?_⟩
      · exact congrArg returned hresult.symm
      · apply hrecorded.grow
        · exact h.singleton
        · exact hm.first_le
        · exact hm.identified
        · exact (Nat.lt_succ_self m.fresh).trans_eq hcaused.fresh.symm
        · obtain ⟨hmemory, htraces⟩ := hm.blank m.fresh le_rfl
          rw [hcaused.trace]
          exact congrArg (Call.traceAfter _ _) (hmemory.trans htraces.symm)
    · refine ⟨[], _, ⟨?_, rfl⟩, hpresent, ?_⟩
      · exact congrArg returned hresult.symm
      · rw [List.append_nil]
        exact hrecorded

/-! ## Copies -/

theorem recorded_copies
    {first : NodeId} {traces : NodeId → Text} {m : Memory} {node : Node}
    (hm : Recorded first nodes traces m)
    (hnode : Present nodes node)
    (n : Nat) :
    Recorded first (nodes ++ ((copies node n).run m).1)
      (tracesAfter traces (copyEvents node.id m.fresh n))
      ((copies node n).run m).2 := by
  induction n generalizing nodes traces m with
  | zero =>
      have hrun : (copies node 0).run m = ([], m) := rfl
      rw [hrun, List.append_nil]
      exact hm
  | succ n ih =>
      have hrun : (copies node (n + 1)).run m =
          (((copy node).run m).1 ::
            ((copies node n).run ((copy node).run m).2).1,
            ((copies node n).run ((copy node).run m).2).2) := rfl
      have hfirst : Recorded first (nodes ++ [((copy node).run m).1])
          (tracesAfter traces [.copied m.fresh node.id])
          ((copy node).run m).2 :=
        hm.copy hnode
      have hrest := ih hfirst (present_append_iff.mpr (Or.inl hnode))
      rw [hrun, copyEvents, tracesAfter_append]
      rw [List.append_assoc] at hrest
      exact hrest

/-- The events of building a pool of copies, if their number is accepted. -/
def repeatedEvents (node : Node) (count : Int) (m : Memory) : List Event :=
  if 1 ≤ count ∧ count ≤ mostCopies then copyEvents node.id m.fresh count.toNat
  else []

theorem recorded_repeated
    {first : NodeId} {traces : NodeId → Text} {m : Memory} {node : Node}
    (hm : Recorded first nodes traces m)
    (hnode : Present nodes node)
    (count : Int) :
    Recorded first (nodes ++ returned ((repeated node count).outcome m))
      (tracesAfter traces (repeatedEvents node count m))
      ((ExceptT.run (repeated node count)).run m).2 := by
  have hrefused (e : Error) : Recorded first
      (nodes ++ returned ((throw e : Building Node).outcome m)) traces m := by
    change Recorded first (nodes ++ []) traces m
    rw [List.append_nil]
    exact hm
  unfold repeated repeatedEvents
  by_cases hlow : count < 1
  · have hcount : ¬(1 ≤ count ∧ count ≤ mostCopies) := by omega
    rw [if_pos hlow, if_neg hcount]
    exact hrefused _
  · by_cases hhigh : (mostCopies : Int) < count
    · have hcount : ¬(1 ≤ count ∧ count ≤ mostCopies) := by omega
      rw [if_neg hlow, if_pos hhigh, if_neg hcount]
      exact hrefused _
    · have hcount : 1 ≤ count ∧ count ≤ mostCopies := by omega
      rw [if_neg hlow, if_neg hhigh, if_pos hcount]
      have hcopies := recorded_copies hm hnode count.toNat
      rcases hrun : (copies node count.toNat).run m with ⟨items, after⟩
      rw [hrun] at hcopies
      have hpool : (ExceptT.run (do
          let items ← (copies node count.toNat : Evaluation (List Node))
          return Node.pool (← newNode) items : Building Node)).run m =
            (.ok (Node.pool after.fresh items), after.numbered) := by
        have hfirst :
            (ExceptT.run ((copies node count.toNat : Evaluation (List Node)) :
              Building (List Node))).run m = (.ok items, after) :=
          congrArg (fun p : List Node × Memory =>
            ((.ok p.1, p.2) : Except Error (List Node) × Memory)) hrun
        rw [run_bind, hfirst]
        rfl
      have hgrown := hcopies.node (.pool after.fresh items)
        (fun item hitem =>
          present_append_iff.mpr (Or.inr (present_of_mem hitem))) rfl
      rw [Building.outcome, hpool]
      apply hgrown.mono
      intro other hother
      rcases List.mem_append.mp hother with hother | hother
      · exact present_of_mem
          (List.mem_append_left _ (List.mem_append_left _ hother))
      · exact present_of_mem (List.mem_append_right _ hother)

end Build
end DiceNotation
