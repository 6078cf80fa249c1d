import DiceNotation.Proofs.History.Recorders
import DiceNotation.Proofs.Node.Exactness
import DiceNotation.Proofs.Parse.Unshared

/-!
# How often bounds are evaluated

An arithmetic modifier needs both bounds of its inner node for either of its
own, and nothing remembers a bound once it was found.  So every arithmetic
modifier but the first doubles the evaluations below it.  Other modifiers and
pools ask for the same bound once more, and the greatest value of an explosion
asks for nothing.
-/

namespace DiceNotation

/-- The entry is an outcome of the node by the method. -/
def Entry.isOf (node : NodeId) (method : Method) : Entry → Bool
  | .line _ _ _ => false
  | .outcome _ o => o.source.map Source.node = some node && o.method = method

namespace Call

/-- The call asks the modifier for what the method is about. -/
def isOf (node : NodeId) (method : Method) (call : Call) : Bool :=
  call.node.tracer?.isSome && call.node.id = node && call.method = method

/-- How many of the calls, with all calls within them, ask a modifier for what a
method is about and come to their end. -/
def heard (node : NodeId) (method : Method) (calls : List Call) : Nat :=
  (allEnded calls).countP (isOf node method)

variable {i : NodeId} {method : Method} {node : Node} {e : Extreme}

theorem heard_append (calls others : List Call) :
    heard i method (calls ++ others) =
      heard i method calls + heard i method others := by
  rw [heard, allEnded_append, List.countP_append]
  rfl

theorem heard_cons (call : Call) (calls : List Call) :
    heard i method (call :: calls) =
      heard i method [call] + heard i method calls :=
  heard_append [call] calls

theorem heard_ofBound (inner : List Call) :
    heard i method [ofBound node e inner] =
      heard i method inner + if isOf i method (ofBound node e inner) then 1
        else 0 := by
  have hended : ended (ofBound node e inner) =
      allEnded inner ++ [ofBound node e inner] := rfl
  rw [heard, allEnded_singleton, hended, List.countP_append,
    List.countP_singleton]
  rfl

/-- The bound of a node is no bound of another, and only modifiers count. -/
theorem heard_ofBound_of_other
    (h : node.id ≠ i ∨ node.tracer? = none)
    (inner : List Call) :
    heard i method [ofBound node e inner] = heard i method inner := by
  have hother : isOf i method (ofBound node e inner) = false := by
    rcases h with h | h <;> simp [isOf, ofBound, h]
  rw [heard_ofBound, hother]
  rfl

theorem heard_ofBound_self
    (h : node.tracer? ≠ none)
    (e' : Extreme) (inner : List Call) :
    heard node.id e'.method [ofBound node e inner] =
      heard node.id e'.method inner + if e' = e then 1 else 0 := by
  have hsome : node.tracer?.isSome = true := Option.isSome_iff_ne_none.mpr h
  have hmethod : e.method = e'.method ↔ e' = e := by
    cases e <;> cases e' <;> simp [Extreme.method]
  rw [heard_ofBound]
  simp [isOf, ofBound, hsome, hmethod]

/-- Of a modifier with a recording tracer, an outcome is kept for every call
that comes to its end. -/
theorem any_isOf_entry?
    {call : Call}
    (hrecorder : ∀ tracer ∈ call.node.tracer?, ∃ name, tracer = .recording name)
    (hended : call.reading.isSome) :
    call.entry?.any (Entry.isOf i method) = call.isOf i method := by
  obtain ⟨r, hr⟩ := Option.isSome_iff_exists.mp hended
  rw [isOf, entry?, outcome?, hr]
  cases htracer : call.node.tracer? with
  | none => rfl
  | some tracer =>
      obtain ⟨name, rfl⟩ := hrecorder tracer htracer
      simp [Entry.isOf, Node.outcome, Node.source, Tracer.recording]

/-- The outcomes that recorders keep of a modifier are as many as the calls of
it that come to their end. -/
theorem countP_isOf_entries
    {whole : Call}
    (h : ∀ call ∈ ended whole,
      ∀ tracer ∈ call.node.tracer?, ∃ name, tracer = .recording name) :
    ((ended whole).filterMap entry?).countP (Entry.isOf i method) =
      (ended whole).countP (isOf i method) := by
  rw [List.countP_filterMap]
  refine List.countP_congr fun call hcall => ?_
  have hended : call.reading.isSome :=
    (List.mem_filter.mp ((perm_ended whole).mem_iff.mp hcall)).2
  rw [← any_isOf_entry? (h call hcall) hended]
  cases call.entry? <;> simp

end Call

namespace Node

open Call

/-! ## One level of the tree -/

section Levels

variable {i : NodeId} {method : Method} {e : Extreme}

theorem heard_pool
    (id : NodeId) (items : List Node) :
    heard i method [boundCall (pool id items) e] =
      heard i method (boundCalls items e) := by
  rw [boundCall]
  exact heard_ofBound_of_other (Or.inr rfl) _

/-- The members of a node are asked as the node is. -/
theorem heard_members (node : Node) :
    heard i method (boundCalls node.members e) =
      heard i method [boundCall node e] := by
  cases node with
  | pool id items => exact (heard_pool id items).symm
  | _ => simp only [members, boundCalls]

variable {tracer : Tracer} {id : NodeId} {inner : Node}

theorem heard_arithmetic
    {op : Operator} {operand : Nat}
    (h : id ≠ i) :
    heard i method [boundCall (arithmetic id tracer op operand inner) e] =
      heard i method [boundCall inner .least] +
        heard i method [boundCall inner .greatest] := by
  rw [boundCall]
  exact (heard_ofBound_of_other (Or.inl (by exact h)) _).trans (heard_cons _ _)

theorem heard_dropKeep
    {selection : Selection} {threshold : Nat}
    (h : id ≠ i) :
    heard i method
        [boundCall (dropKeep id tracer selection threshold inner) e] =
      heard i method [boundCall inner e] := by
  rw [boundCall_dropKeep]
  exact (heard_ofBound_of_other (Or.inl (by exact h)) _).trans
    (heard_members inner)

theorem heard_explode_least
    {comparator : Comparator} {threshold : Option Int}
    (h : id ≠ i) :
    heard i method
        [boundCall (explode id tracer comparator threshold inner) .least] =
      heard i method [boundCall inner .least] := by
  rw [boundCall_explode_least]
  exact (heard_ofBound_of_other (Or.inl (by exact h)) _).trans
    (heard_members inner)

theorem heard_explode_greatest
    {comparator : Comparator} {threshold : Option Int}
    (h : id ≠ i) :
    heard i method [boundCall
      (explode id tracer comparator threshold inner) .greatest] = 0 := by
  rw [boundCall_explode_greatest]
  exact heard_ofBound_of_other (Or.inl (by exact h)) _

end Levels

/-! ## Parts that stand at one place -/

section Places

variable {i : NodeId} {method : Method} {e : Extreme}

theorem heard_boundCalls_eq_zero
    {nodes : List Node}
    (h : ∀ node ∈ nodes, heard i method [boundCall node e] = 0) :
    heard i method (boundCalls nodes e) = 0 := by
  induction nodes with
  | nil => rfl
  | cons node rest ih =>
      rw [List.forall_mem_cons] at h
      rw [boundCalls, heard_cons, h.1, ih h.2]

/-- Nothing is heard of nodes that stand nowhere in the tree. -/
theorem heard_eq_zero
    {node : Node}
    (h : i ∉ node.ids) :
    heard i method [boundCall node e] = 0 := by
  induction node using induction_members generalizing e with
  | die id d =>
      rw [ids, List.mem_singleton] at h
      rw [boundCall, heard_ofBound_of_other (Or.inr rfl)]
      rfl
  | pool id items ih =>
      rw [ids, List.mem_cons, not_or, mem_allIds_iff] at h
      rw [heard_pool]
      exact heard_boundCalls_eq_zero fun item hitem =>
        ih item hitem fun hi => h.2 ⟨item, hitem, hi⟩
  | arithmetic id tracer op operand inner ih =>
      rw [ids, List.mem_cons, not_or] at h
      rw [heard_arithmetic (Ne.symm h.1), ih h.2, ih h.2]
  | dropKeep id tracer selection threshold inner ih _ =>
      rw [ids, List.mem_cons, not_or] at h
      rw [heard_dropKeep (Ne.symm h.1), ih h.2]
  | explode id tracer comparator threshold inner ih _ =>
      rw [ids, List.mem_cons, not_or] at h
      cases e with
      | least => rw [heard_explode_least (Ne.symm h.1), ih h.2]
      | greatest => exact heard_explode_greatest (Ne.symm h.1)

/-- Among nodes that share nothing, only one is heard of. -/
theorem heard_boundCalls_of_mem
    {nodes : List Node} {child : Node}
    (hnodup : (allIds nodes).Nodup)
    (hchild : child ∈ nodes)
    (hi : i ∈ child.ids) :
    heard i method (boundCalls nodes e) =
      heard i method [boundCall child e] := by
  induction nodes with
  | nil => exact absurd hchild List.not_mem_nil
  | cons node rest ih =>
      rw [allIds, List.nodup_append] at hnodup
      obtain ⟨-, hrest, hdisjoint⟩ := hnodup
      rw [boundCalls, heard_cons]
      rcases List.mem_cons.mp hchild with rfl | hchild
      · have hnone : heard i method (boundCalls rest e) = 0 := by
          refine heard_boundCalls_eq_zero fun other hother =>
            heard_eq_zero fun hi' => ?_
          exact hdisjoint i hi i (mem_allIds_iff.mpr ⟨other, hother, hi'⟩) rfl
        rw [hnone, Nat.add_zero]
      · have hnone : heard i method [boundCall node e] = 0 := by
          refine heard_eq_zero fun hi' => ?_
          exact hdisjoint i hi' i (mem_allIds_iff.mpr ⟨child, hchild, hi⟩) rfl
        rw [hnone, Nat.zero_add, ih hrest hchild]

end Places

/-! ## The whole tree -/

/-- The number of arithmetic modifiers that the node is, one or none. -/
def operators : Node → Nat
  | arithmetic _ _ _ _ _ => 1
  | _ => 0

/-- The part stands in the tree of the node below so many arithmetic
modifiers. -/
inductive Below (part : Node) : Nat → Node → Prop where
  | here : Below part 0 part
  | inside {a : Nat} {child node : Node} :
      Below part a child → child ∈ node.children →
        Below part (node.operators + a) node

theorem Below.occurs
    {part node : Node} {a : Nat}
    (h : Below part a node) :
    Occurs part node := by
  induction h with
  | here => exact .here part
  | inside _ hchild ih => exact ih.inside hchild

/-- How often a bound is evaluated below so many arithmetic modifiers if a bound
is asked for at the top: without any, only if it is the one that is asked for,
and else twice as often with each further one. -/
def askings : Nat → Extreme → Extreme → Nat
  | 0, asked, e => if e = asked then 1 else 0
  | a + 1, _, _ => 2 ^ a

theorem askings_least_add_greatest (a : Nat) (e : Extreme) :
    askings a .least e + askings a .greatest e = 2 ^ a := by
  cases a with
  | zero => cases e <;> rfl
  | succ a => rw [askings, askings, Nat.pow_succ, Nat.mul_two]

/-- No explosion of the tree has the part below it. -/
def ClearOf (part node : Node) : Prop :=
  ∀ outer, Occurs outer node → outer.IsExplosion → ¬Present outer.children part

theorem IsExplosion.binding {node : Node} (h : node.IsExplosion) :
    node.binding = .explode := by
  cases h
  rfl

section Counting

variable {part node : Node} {a : Nat}

/-- The bound that a part is asked for is heard of once. -/
theorem heard_boundCall_self
    (hunshared : part.Unshared)
    (hmodifier : part.tracer? ≠ none)
    (asked e : Extreme) :
    heard part.id e.method [boundCall part asked] =
      if e = asked then 1 else 0 := by
  have hinner : ∃ inner, boundCall part asked = .ofBound part asked inner ∧
      heard part.id e.method inner = 0 := by
    have habsent := hunshared.id_not_mem
    cases part with
    | die | pool => exact absurd rfl hmodifier
    | arithmetic id tracer op operand inner =>
        rw [children, allIds_singleton] at habsent
        refine ⟨_, by rw [boundCall], ?_⟩
        rw [heard_cons, heard_eq_zero habsent, heard_eq_zero habsent]
    | dropKeep id tracer selection threshold inner =>
        rw [children, allIds_singleton] at habsent
        refine ⟨_, boundCall_dropKeep _ _ _ _ _ _, ?_⟩
        rw [heard_members, heard_eq_zero habsent]
    | explode id tracer comparator threshold inner =>
        rw [children, allIds_singleton] at habsent
        cases asked with
        | least =>
            refine ⟨_, boundCall_explode_least _ _ _ _ _, ?_⟩
            rw [heard_members, heard_eq_zero habsent]
        | greatest => exact ⟨_, boundCall_explode_greatest _ _ _ _ _, rfl⟩
  obtain ⟨inner, hcall, hinner⟩ := hinner
  rw [hcall, heard_ofBound_self hmodifier, hinner, Nat.zero_add]

theorem ClearOf.child
    {child : Node}
    (h : ClearOf part node)
    (hchild : child ∈ node.children) :
    ClearOf part child :=
  fun outer houter => h outer (houter.inside hchild)

/-- A part is heard of at most as often as the arithmetic modifiers above it
make it, and exactly as often if no explosion is above it. -/
theorem heard_boundCall
    (hpart : Below part a node)
    (hunshared : node.Unshared)
    (hmodifier : part.tracer? ≠ none)
    (asked e : Extreme) :
    heard part.id e.method [boundCall node asked] ≤ askings a asked e ∧
      (ClearOf part node → heard part.id e.method [boundCall node asked] =
        askings a asked e) := by
  -- Which bound is asked for changes on the way down: arithmetic asks for both.
  induction hpart generalizing asked with
  | here =>
      have hself := heard_boundCall_self hunshared hmodifier asked e
      exact ⟨hself.le, fun _ => hself⟩
  | @inside a child node hbelow hchild ih =>
      have hmem : part.id ∈ child.ids := mem_ids_of_occurs hbelow.occurs
      have hid : node.id ≠ part.id := by
        intro heq
        refine hunshared.id_not_mem (mem_allIds_iff.mpr ⟨child, hchild, ?_⟩)
        rwa [heq]
      have hinner := ih (hunshared.child hchild)
      have hclear (h : ClearOf part node) : ClearOf part child := h.child hchild
      cases node with
      | die => exact absurd hchild List.not_mem_nil
      | pool id items =>
          have hlevel : (pool id items).operators + a = a := Nat.zero_add a
          have hnodup : (allIds items).Nodup := hunshared.nodup_children
          have hcall :
              heard part.id e.method [boundCall (pool id items) asked] =
                heard part.id e.method [boundCall child asked] :=
            (heard_pool id items).trans
              (heard_boundCalls_of_mem hnodup hchild hmem)
          rw [hcall, hlevel]
          exact ⟨(hinner asked).1, fun h => (hinner asked).2 (hclear h)⟩
      | arithmetic id tracer op operand inner =>
          cases List.mem_singleton.mp hchild
          have hlevel :
              (arithmetic id tracer op operand child).operators + a = a + 1 :=
            Nat.add_comm 1 a
          have hcall : heard part.id e.method
              [boundCall (arithmetic id tracer op operand child) asked] =
                heard part.id e.method [boundCall child .least] +
                  heard part.id e.method [boundCall child .greatest] :=
            heard_arithmetic hid
          rw [hcall, hlevel, askings, ← askings_least_add_greatest a e]
          constructor
          · exact Nat.add_le_add (hinner .least).1 (hinner .greatest).1
          · intro h
            rw [(hinner .least).2 (hclear h), (hinner .greatest).2 (hclear h)]
      | dropKeep id tracer selection threshold inner =>
          cases List.mem_singleton.mp hchild
          have hlevel :
              (dropKeep id tracer selection threshold child).operators +
                a = a :=
            Nat.zero_add a
          have hcall : heard part.id e.method
              [boundCall (dropKeep id tracer selection threshold child) asked] =
                heard part.id e.method [boundCall child asked] :=
            heard_dropKeep hid
          rw [hcall, hlevel]
          exact ⟨(hinner asked).1, fun h => (hinner asked).2 (hclear h)⟩
      | explode id tracer comparator threshold inner =>
          cases List.mem_singleton.mp hchild
          have hlevel :
              (explode id tracer comparator threshold child).operators +
                a = a :=
            Nat.zero_add a
          rw [hlevel]
          constructor
          · cases asked with
            | least =>
                exact (heard_explode_least hid).trans_le (hinner .least).1
            | greatest =>
                exact (heard_explode_greatest hid).trans_le (Nat.zero_le _)
          · intro h
            exact absurd ⟨child, hchild, hbelow.occurs⟩
              (h _ (.here _) (.mk id tracer comparator threshold child))

end Counting

/-- The calls that end while a bound is found are calls of the nodes in the
tree. -/
theorem occurs_of_mem_ended
    {node : Node} {e : Extreme} {call : Call}
    (h : call ∈ ended (boundCall node e)) :
    Occurs call.node node := by
  have hstarted : call ∈ allStarted [boundCall node e] := by
    rw [allStarted, allStarted, List.append_nil]
    exact (List.mem_filter.mp ((perm_ended _).mem_iff.mp h)).1
  have hhappened : call.Happened Engine.script ∧ Present [node] call.node :=
    happen_boundCall node e call hstarted
  exact present_singleton_iff.mp hhappened.2

/-- How often a bound of a modifier is evaluated when a bound is asked for at
the root of a tree without shared nodes, as trees that were read from text are:
at most once if no more than one arithmetic modifier is above it, at most twice
as often with each further one, and exactly as often if no explosion is above
it.  Every tracer is told so often, and recording ones keep so many outcomes. -/
theorem bounds_heard_of_modifiers :
    (∀ {tracer : Tracer} {text : Text} {node : Node},
      (parse tracer text).Returns node → node.Unshared) ∧
    ∀ {node part : Node} {a : Nat}, node.Unshared → Below part a node →
      part.tracer? ≠ none →
      ∀ asked e : Extreme,
        let calls := ended (boundCall node asked)
        calls.countP (Call.isOf part.id e.method) ≤ askings a asked e ∧
        (ClearOf part node → calls.countP (Call.isOf part.id e.method) =
          askings a asked e) ∧
        (∀ m, ((node.bound asked).run m).2.journal =
          calls.foldl Call.report m.journal) ∧
        ((∀ other, Occurs other node →
            ∀ tracer ∈ other.tracer?, ∃ name, tracer = .recording name) →
          ∀ m, ((node.bound asked).run m).2.journal.toList =
              m.journal.toList ++ calls.filterMap entry? ∧
            (calls.filterMap entry?).countP (Entry.isOf part.id e.method) =
              calls.countP (Call.isOf part.id e.method)) := by
  refine ⟨unshared_of_parse, ?_⟩
  intro node part a hunshared hbelow hmodifier asked e calls
  have hcount := heard_boundCall hbelow hunshared hmodifier asked e
  rw [heard, allEnded_singleton] at hcount
  have hreports (m : Memory) : ((node.bound asked).run m).2.journal =
      calls.foldl Call.report m.journal := by
    rw [reports_bound node asked m, reported, allEnded_singleton]
  refine ⟨hcount.1, hcount.2, hreports, ?_⟩
  intro hrecorders m
  have hcalls : ∀ call ∈ calls,
      ∀ tracer ∈ call.node.tracer?, ∃ name, tracer = .recording name :=
    fun call hcall => hrecorders call.node (occurs_of_mem_ended hcall)
  refine ⟨?_, countP_isOf_entries hcalls⟩
  rw [hreports m, foldl_report_of_recording hcalls]

/-- One minimum of the whole asks a selection below two sums for both of its
bounds twice. -/
theorem minimum_asks_selection_twice :
    ∃ node part,
      (parse (.recording "heard".toList) "D6KH1+1+1".toList).Returns node ∧
      node.Unshared ∧ Occurs part node ∧
      part.tracer? = some (.recording "heard".toList) ∧
      ∀ e : Extreme, (node.minimum.run Memory.empty).2.journal.toList.countP
        (Entry.isOf part.id e.method) = 2 := by
  let tracer : Tracer := .recording "heard".toList
  let part : Node := dropKeep 1 tracer .keepHighest 1 (die 0 (.sided 6))
  let sum : Node := arithmetic 2 tracer .add 1 part
  let node : Node := arithmetic 3 tracer .add 1 sum
  have hread : (parse tracer "D6KH1+1+1".toList).Returns node :=
    ⟨Memory.empty, by cbv⟩
  have hsum : Occurs part sum := (Occurs.here part).inside (.head _)
  refine ⟨node, part, hread, unshared_of_parse hread,
    hsum.inside (.head _), rfl, ?_⟩
  intro e
  cases e <;> rfl

/-- Three sums above a selection double the calls of its bounds twice, whichever
bound of the whole is asked for. -/
theorem selection_below_three_sums_heard_four_times :
    ∃ node part,
      (parse (.recording "heard".toList) "(D6KH1+1+1)+1".toList).Returns node ∧
      Below part 3 node ∧ part.render = "D6KH1".toList ∧
      ∀ asked e : Extreme,
        ((node.bound asked).run Memory.empty).2.journal.toList.countP
          (Entry.isOf part.id e.method) = 4 := by
  let tracer : Tracer := .recording "heard".toList
  let part : Node := dropKeep 1 tracer .keepHighest 1 (die 0 (.sided 6))
  let sum : Node := arithmetic 2 tracer .add 1 part
  let longer : Node := arithmetic 3 tracer .add 1 sum
  let node : Node := arithmetic 4 tracer .add 1 longer
  have hread : (parse tracer "(D6KH1+1+1)+1".toList).Returns node :=
    ⟨Memory.empty, by cbv⟩
  have hunshared : node.Unshared := bounds_heard_of_modifiers.1 hread
  have hsum : Below part 1 sum := @Below.inside part 0 part sum .here (.head _)
  have hlonger : Below part 2 longer :=
    @Below.inside part 1 sum longer hsum (.head _)
  have hbelow : Below part 3 node :=
    @Below.inside part 2 longer node hlonger (.head _)
  have hparts {P : Node → Prop} (hnode : P node)
      (hlonger : P longer) (hsum : P sum) (hpart : P part)
      (hdie : P (die 0 (.sided 6))) : ∀ other, Occurs other node → P other := by
    refine forall_occurs_iff.mpr ⟨hnode, List.forall_mem_singleton.mpr ?_⟩
    refine forall_occurs_iff.mpr ⟨hlonger, List.forall_mem_singleton.mpr ?_⟩
    refine forall_occurs_iff.mpr ⟨hsum, List.forall_mem_singleton.mpr ?_⟩
    refine forall_occurs_iff.mpr ⟨hpart, List.forall_mem_singleton.mpr ?_⟩
    exact forall_occurs_iff.mpr ⟨hdie, List.forall_mem_nil _⟩
  have hclear : ClearOf part node := by
    refine hparts ?_ ?_ ?_ ?_ ?_ <;> exact fun h => absurd h.binding (by decide)
  have hrecorders : ∀ other, Occurs other node →
      ∀ tracer ∈ other.tracer?, ∃ name, tracer = .recording name := by
    refine hparts ?_ ?_ ?_ ?_ ?_ <;> rintro _ ⟨⟩ <;> exact ⟨_, rfl⟩
  refine ⟨node, part, hread, hbelow, by decide, ?_⟩
  intro asked e
  obtain ⟨-, hexactly, -, hkept⟩ :=
    bounds_heard_of_modifiers.2 hunshared hbelow (by rintro ⟨⟩) asked e
  obtain ⟨hjournal, hcount⟩ := hkept hrecorders Memory.empty
  rw [hjournal, List.countP_append, hcount, hexactly hclear]
  rfl

end Node
end DiceNotation
