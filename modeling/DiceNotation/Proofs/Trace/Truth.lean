import DiceNotation.Proofs.History.Rolls
import DiceNotation.Proofs.Roll.Enclosure
import DiceNotation.Proofs.Saturation

/-!
# Traces are true

The trace of a bound, read as an integer expression, has the bound as its value
once it is clamped.  The trace of a roll has the value of the roll, as long as
no result within the roll had to be clamped: after that, the trace of an inner
node does not show what the outer node went on with.
-/

namespace DiceNotation

namespace Reading

open Trace

/-- The trace of the reading is an expression for its value. -/
def Exact (r : Reading) : Prop :=
  Means loosest r.trace r.value

theorem exact_ofValue (value : Int) : (ofValue value).Exact :=
  (Means.literal value).mono (Nat.zero_le _)

theorem means_total
    {parts : List Reading}
    (h : ∀ r ∈ parts, r.Exact) :
    Means loosest (total parts).trace (parts.map value).sum := by
  apply means_join
  rw [List.forall₂_map_left_iff, List.forall₂_map_right_iff, List.forall₂_same]
  exact fun r hr => means_asSummand (h r hr)

theorem means_total_ofValue (values : List Int) :
    Means loosest (total (values.map ofValue)).trace values.sum := by
  have h : ∀ r ∈ values.map ofValue, r.Exact :=
    List.forall_mem_map.mpr fun value _ => exact_ofValue value
  have hvalues : (values.map ofValue).map value = values := by
    rw [List.map_map]
    exact List.map_id values
  have hmeans := means_total h
  rwa [hvalues] at hmeans

theorem means_operate
    {r : Reading} {op : Operator} {operand : Nat} {n : Int}
    (h : r.Exact)
    (hexact : op.exact r.value operand = some n) :
    Means loosest (r.operate op operand).trace n := by
  have hrank : op.rank ≤ loosest := by
    cases op <;> decide
  have hoperand : Means (op.rank - 1) (numeral operand) operand :=
    (Means.literal operand).mono (Nat.zero_le _)
  have hvalue : Means op.rank (asOperand r.trace) r.value :=
    (means_asOperand h).mono (Nat.zero_le _)
  exact (Means.operation hvalue hoperand hexact).mono hrank

end Reading

namespace Node

open Trace

/-! ## Traces of bounds -/

/-- The account of a bound has a true trace, up to clamping. -/
theorem exists_means_account
    {node : Node}
    (h : node.WellFormed)
    (e : Extreme) :
    ∃ n, Means loosest (node.account e).trace n ∧
      (node.account e).value = clamp n := by
  cases h with
  | @die id d hd =>
      have hwell : (die id d).WellFormed := .die hd
      have hholds := holds_extreme hwell e
      exact ⟨d.bound e, Reading.exact_ofValue _, (clamp_of_holds hholds).symm⟩
  | @pool id items =>
      exact ⟨_, Reading.means_total_ofValue _, Reading.value_total_ofValue _⟩
  | @arithmetic id tracer op operand inner hinner _ hdivide =>
      have hstart : Limits.Holds
          (op.boundAt operand inner.listedFaces (inner.extreme .least)
            (inner.extreme .greatest) e) :=
        Operator.holds_boundAt
          (fun face hface => holds_of_mem_listedFaces hinner hface)
          (holds_extreme hinner .least) (holds_extreme hinner .greatest) e
      obtain ⟨n, hn⟩ := Operator.exists_exact hdivide _
      exact ⟨n, Reading.means_operate (Reading.exact_ofValue _) hn,
        Operator.apply_eq_clamp hn hstart⟩
  | @dropKeep id tracer selection threshold inner =>
      exact ⟨_, Reading.means_total_ofValue _, Reading.value_total_ofValue _⟩
  | @explode id tracer comparator threshold inner =>
      cases e with
      | least =>
          exact ⟨_, Reading.means_total_ofValue _,
            Reading.value_total_ofValue _⟩
      | greatest => exact ⟨Limits.highest, Reading.exact_ofValue _, rfl⟩

/-! ## Exact results of rolls -/

/-- The exact result of a roll of the node, from the values of the rolls that it
makes.  That of a die is never clamped. -/
def exactResult (values : List Int) : Node → Option Int
  | die _ _ => none
  | pool _ _ => some values.sum
  | arithmetic _ _ op operand _ =>
      values.head?.bind fun value => op.exact value operand
  | dropKeep _ _ selection threshold _ =>
      some (selection.choose threshold values).sum
  | explode _ _ _ _ _ => some values.sum

end Node

namespace Call

/-- The values of the completed rolls among calls. -/
def rolled (calls : List Call) : List Int :=
  calls.filterMap fun call =>
    if call.method = .roll then call.reading.map Reading.value else none

/-- The call is a roll whose exact result had to be clamped. -/
def Clamped (call : Call) : Prop :=
  call.method = .roll ∧
    ∃ n ∈ call.node.exactResult (rolled call.inner), ¬Limits.Holds n

instance (call : Call) : Decidable call.Clamped :=
  inferInstanceAs (Decidable
    (_ ∧ ∃ n ∈ call.node.exactResult (rolled call.inner), ¬Limits.Holds n))

/-- No roll among the calls and within them had to be clamped. -/
def Unclamped (calls : List Call) : Prop :=
  ∀ call ∈ allStarted calls, ¬call.Clamped

theorem rolled_append (calls others : List Call) :
    rolled (calls ++ others) = rolled calls ++ rolled others :=
  List.filterMap_append

theorem unclamped_append_iff {calls others : List Call} :
    Unclamped (calls ++ others) ↔ Unclamped calls ∧ Unclamped others := by
  rw [Unclamped, allStarted_append, List.forall_mem_append]
  rfl

end Call

namespace Rolling

open Call

variable {σ α β : Type} {engine : Engine σ} {calls : Table σ → List Call}

/-- Whenever the computation returns, the rolls among its calls came to
outcomes that are related to its result, and the traces of these are true unless
something was clamped. -/
def Explains (x : Rolling σ α) (calls : Table σ → List Call)
    (P : α → List Outcome → Prop) : Prop :=
  ∀ ⦃t a u⦄, run x t = (.ok a, u) → ∃ os, P a os ∧
    rolled (calls t) = os.map (fun o => o.value) ∧
      (Unclamped (calls t) → ∀ o ∈ os, o.toReading.Exact)

/-- The computation always returns this result. -/
def Yields (x : Rolling σ α) (a : α) : Prop :=
  ∀ t, ∃ u, run x t = (.ok a, u)

theorem yields_pure (a : α) : Yields (σ := σ) (pure a) a :=
  fun t => ⟨t, rfl⟩

/-- What makes no rolls has nothing to explain. -/
theorem explains_nothing
    {x : Rolling σ α} {made : List Call} {P : α → List Outcome → Prop}
    (hmade : rolled made = [])
    (hP : ∀ {t a u}, run x t = (.ok a, u) → P a []) :
    Explains x (fun _ => made) P := by
  intro t a u hrun
  exact ⟨[], hP hrun, hmade, fun _ o ho => absurd ho List.not_mem_nil⟩

theorem explains_pure
    {a : α} {P : α → List Outcome → Prop}
    (h : P a []) :
    Explains (σ := σ) (pure a) (fun _ => []) P := by
  apply explains_nothing rfl
  intro t b u hrun
  cases hrun
  exact h

theorem Explains.bind
    {x : Rolling σ α} {f : α → Rolling σ β} {more : α → Table σ → List Call}
    {P : α → List Outcome → Prop} {Q : β → List Outcome → Prop}
    (hx : Explains x calls P)
    (hf : ∀ a os,
      P a os → Explains (f a) (more a) fun b others => Q b (os ++ others)) :
    Explains (x >>= f) (fun t => calls t ++ followUp x more t) Q := by
  intro t b v hrun
  obtain ⟨a, u, hfirst, hsecond⟩ := run_bind_eq_ok hrun
  obtain ⟨os, hP, hvalues, hexact⟩ := hx hfirst
  obtain ⟨others, hQ, hmore, hexactMore⟩ := hf a os hP hsecond
  have hfollow : followUp x more t = more a u := by
    rw [followUp, hfirst]
  refine ⟨os ++ others, hQ, ?_, ?_⟩
  · dsimp only
    rw [hfollow, rolled_append, hvalues, hmore, List.map_append]
  · intro hunclamped o ho
    dsimp only at hunclamped
    rw [hfollow, unclamped_append_iff] at hunclamped
    rcases List.mem_append.mp ho with ho | ho
    · exact hexact hunclamped.1 o ho
    · exact hexactMore hunclamped.2 o ho

/-- A last step may turn the result into another. -/
theorem Explains.finish
    {x : Rolling σ α} {f : α → Rolling σ β} {g : α → β}
    {P : α → List Outcome → Prop} {Q : β → List Outcome → Prop}
    (hx : Explains x calls P)
    (hf : ∀ a, Yields (f a) (g a))
    (hPQ : ∀ a os, P a os → Q (g a) os) :
    Explains (x >>= f) calls Q := by
  intro t b v hrun
  obtain ⟨a, u, hfirst, hsecond⟩ := run_bind_eq_ok hrun
  obtain ⟨os, hP, hvalues, hexact⟩ := hx hfirst
  obtain ⟨w, hw⟩ := hf a u
  rw [hw] at hsecond
  cases hsecond
  exact ⟨os, hPQ a os hP, hvalues, hexact⟩

theorem run_settle_eq_ok
    {node : NodeId} {x : Rolling σ Outcome} {t v : Table σ} {o : Outcome}
    (h : run (settle node x) t = (.ok o, v)) :
    ∃ opened u, run x opened = (.ok o, u) ∧
      opened = { t with memory.traces := t.memory.traces.set node [] } := by
  obtain ⟨_, opened, hopen, hrest⟩ := run_bind_eq_ok h
  obtain ⟨o', u, hroll, hlast⟩ := run_bind_eq_ok hrest
  obtain ⟨_, w, _, hresult⟩ := run_bind_eq_ok hlast
  cases hopen
  cases hresult
  exact ⟨_, u, hroll, rfl⟩

/-- The roll of a node has a true trace if it has one whenever all that it is
made of has true traces and its exact result is a value. -/
theorem Explains.settle
    {node : Node} {x : Rolling σ Outcome} {P : Outcome → List Outcome → Prop}
    (hroll : node.roll engine = Rolling.settle node.id x)
    (hx : Explains x calls P)
    (hexact : ∀ o os, P o os → (∀ part ∈ os, part.toReading.Exact) →
      (∀ n ∈ node.exactResult (os.map fun o => o.value), Limits.Holds n) →
        o.toReading.Exact) :
    Explains (node.roll engine) (fun t => [Node.ofRoll engine node calls t])
      fun o os => os = [o] := by
  intro t o v hrun
  have hreading :
      (Node.ofRoll engine node calls t).reading = some o.toReading := by
    rw [Node.ofRoll, hrun]
    rfl
  rw [hroll] at hrun
  obtain ⟨opened, u, hinner, rfl⟩ := run_settle_eq_ok hrun
  obtain ⟨os, hP, hvalues, hparts⟩ := hx hinner
  refine ⟨[o], rfl, ?_, ?_⟩
  · have hmethod : (Node.ofRoll engine node calls t).method = .roll := rfl
    simp only [rolled, List.filterMap_cons, hmethod, hreading, if_true,
      Option.map_some, List.filterMap_nil, List.map_cons, List.map_nil]
  · intro hunclamped part hpart
    rw [List.mem_singleton.mp hpart]
    rw [Unclamped, allStarted_singleton, List.forall_mem_cons] at hunclamped
    apply hexact o os hP (hparts hunclamped.2)
    intro n hn
    by_contra hclamped
    apply hunclamped.1
    refine ⟨rfl, n, ?_, hclamped⟩
    rw [← hvalues] at hn
    exact hn

end Rolling

namespace Node

open Rolling

variable {σ : Type} {engine : Engine σ}

/-! ## Traces of rolls -/

theorem yields_complete (node : Node) (tracer : Tracer) (r : Reading) :
    Yields (σ := σ) (node.complete tracer r) (node.outcome .roll r) :=
  fun _ => ⟨_, rfl⟩

theorem explains_repeatUpTo
    {roll : Rolling σ Outcome} {call : Table σ → Call}
    (h : Explains roll (fun t => [call t]) fun o os => os = [o])
    (again : Outcome → Bool)
    (rounds : Nat) :
    Explains (repeatUpTo again roll rounds) (roundCalls again roll call rounds)
      fun outcomes os => os = outcomes := by
  induction rounds with
  | zero =>
      intro t outcomes u hrun
      cases hrun
  | succ rounds ih =>
      apply h.bind
      intro o os hos
      subst hos
      cases again o with
      | true =>
          apply ih.finish fun rest => yields_pure (o :: rest)
          intro outcomes os hos
          rw [hos]
          rfl
      | false => exact explains_pure rfl

theorem explains_rollExploding
    {node : Node} {call : Table σ → Call}
    (h : Explains (node.roll engine) (fun t => [call t]) fun o os => os = [o])
    (comparator : Comparator) (threshold : Option Int) :
    Explains (rollExploding engine comparator threshold node (node.roll engine))
      (burstCalls engine comparator threshold node call)
      fun outcomes os => os = outcomes := by
  have hlimit : Explains (σ := σ) (explosionLimit threshold node) (fun _ =>
      if threshold.isNone then [boundCall node .greatest] else [])
      fun _ os => os = [] := by
    apply explains_nothing
    · cases threshold with
      | none =>
          have hmethod : (boundCall node .greatest).method ≠ .roll := by
            rw [method_boundCall]
            decide
          simp only [Option.isNone_none, if_true, Call.rolled,
            List.filterMap_cons, if_neg hmethod, List.filterMap_nil]
      | some t => rfl
    · intro t limit u hrun
      rfl
  apply hlimit.bind
  intro limit os hos
  subst hos
  intro t outcomes u hrun
  exact explains_repeatUpTo h _ _ hrun

theorem explains_rollEach
    {nodes : List Node}
    (h : ∀ node ∈ nodes,
      Explains (node.roll engine) (fun t => [rollCall engine node t])
        fun o os => os = [o]) :
    Explains (rollEach engine nodes) (eachCalls engine nodes)
      fun outcomes os => os = outcomes := by
  induction nodes with
  | nil => exact explains_pure rfl
  | cons node rest ih =>
      rw [List.forall_mem_cons] at h
      rw [rollEach, eachCalls]
      apply h.1.bind
      intro o os hos
      subst hos
      apply (ih h.2).finish fun outcomes => yields_pure (o :: outcomes)
      intro outcomes os hos
      rw [hos]
      rfl

theorem explains_explodeEach
    {comparator : Comparator} {threshold : Option Int} {nodes : List Node}
    (h : ∀ node ∈ nodes,
      Explains (node.roll engine) (fun t => [rollCall engine node t])
        fun o os => os = [o]) :
    Explains (explodeEach engine comparator threshold nodes)
      (explosionCalls engine comparator threshold nodes)
      fun outcomes os => os = outcomes := by
  induction nodes with
  | nil => exact explains_pure rfl
  | cons node rest ih =>
      rw [List.forall_mem_cons] at h
      rw [explodeEach, explosionCalls]
      apply (explains_rollExploding h.1 comparator threshold).bind
      intro outcomes os hos
      subst hos
      apply (ih h.2).finish fun others => yields_pure (os ++ others)
      intro others os hos
      rw [hos]

theorem exact_totalOf
    {os : List Outcome}
    (h : ∀ part ∈ os, part.toReading.Exact)
    (hholds : Limits.Holds (os.map fun o => o.value).sum) :
    (totalOf os).Exact := by
  have hvalues :
      (os.map Outcome.toReading).map Reading.value = os.map fun o => o.value :=
    List.map_map
  have hmeans := Reading.means_total (List.forall_mem_map.mpr h)
  rw [hvalues] at hmeans
  rw [Reading.Exact, totalOf, Reading.value_total, hvalues,
    clamp_of_holds hholds]
  exact hmeans

/-- The roll of a well-formed node has a true trace unless something in it was
clamped. -/
theorem explains_roll
    (engine : Engine σ)
    {node : Node}
    (h : node.WellFormed) :
    Explains (node.roll engine) (fun t => [rollCall engine node t])
      fun o os => os = [o] := by
  induction h with
  | @die id d =>
      rw [rollCall]
      apply Explains.settle (roll.eq_def _ _)
        (P := fun o _ => ∃ n, o.toReading = Reading.ofValue n)
      · have hdraw : Explains (draw engine d.range.1 d.range.2)
            (fun _ => []) fun _ _ => True :=
          explains_nothing rfl fun _ => trivial
        exact hdraw.finish (fun n => yields_pure _)
          fun n os _ => ⟨d.face n, rfl⟩
      · intro o os ho hparts hholds
        obtain ⟨n, hn⟩ := ho
        rw [hn]
        exact Reading.exact_ofValue n
  | @pool id items _ ih =>
      rw [rollCall]
      apply Explains.settle (roll.eq_def _ _)
        (P := fun o os => o.toReading = totalOf os)
      · exact (explains_rollEach ih).finish (fun outcomes => yields_pure _)
          fun outcomes os hos => by rw [hos]; rfl
      · intro o os ho hparts hholds
        rw [ho]
        exact exact_totalOf hparts (hholds _ rfl)
  | @arithmetic id tracer op operand inner _ _ hdivide ih =>
      rw [rollCall]
      apply Explains.settle (roll.eq_def _ _)
        (P := fun o os => ∃ part,
          os = [part] ∧ o.toReading = part.toReading.operate op operand)
      · exact ih.finish (fun o => yields_complete _ _ _)
          fun o os hos => ⟨o, hos, rfl⟩
      · intro o os ho hparts hholds
        obtain ⟨part, rfl, ho⟩ := ho
        obtain ⟨n, hn⟩ := Operator.exists_exact hdivide part.value
        have hmeans :=
          Reading.means_operate (hparts part (List.mem_singleton_self part)) hn
        rw [← Operator.apply_eq_of_holds hn (hholds n hn)] at hmeans
        rw [ho]
        exact hmeans
  | @dropKeep id tracer selection threshold inner _ _ _ _ ih =>
      rw [rollCall_dropKeep]
      apply Explains.settle (roll_dropKeep _ _ _ _ _ _)
        (P := fun o os => o.toReading = totalChosen selection threshold os)
      · exact (explains_rollEach ih).finish
          (fun outcomes => yields_complete _ _ _)
          fun outcomes os hos => by rw [hos]; rfl
      · intro o os ho hparts hholds
        have hmeans := Reading.means_total_ofValue
          (selection.choose threshold (os.map fun o => o.value))
        rw [ho, Reading.Exact, totalChosen, Reading.value_total_ofValue,
          clamp_of_holds (hholds _ rfl)]
        exact hmeans
  | @explode id tracer comparator threshold inner _ _ _ ih =>
      rw [rollCall_explode]
      apply Explains.settle (roll_explode _ _ _ _ _ _)
        (P := fun o os => o.toReading = totalOf os)
      · exact (explains_explodeEach ih).finish
          (fun outcomes => yields_complete _ _ _)
          fun outcomes os hos => by rw [hos]; rfl
      · intro o os ho hparts hholds
        rw [ho]
        exact exact_totalOf hparts (hholds _ rfl)

/-- Traces are true: read as an integer expression, the trace of a bound of a
constructed node has the bound as its clamped value, and the trace of every roll
that returns has the value of the roll unless the exact result of a roll in it
had to be clamped. -/
theorem traces_are_true
    (node : Node)
    (hnode : Constructed node) :
    (∀ m e, ∃ n,
      Trace.value? (((node.bound e).run m).2.trace node.id) = some n ∧
      ((node.bound e).run m).1 = clamp n) ∧
      ∀ {σ : Type} (engine : Engine σ) (t u : Table σ) (o : Outcome),
        Rolling.run (roll engine node) t = (.ok o, u) →
          (∀ call ∈ (rollCall engine node t).started, ¬call.Clamped) →
            Trace.value? o.trace = some o.value := by
  have hwellFormed := hnode.wellFormed
  constructor
  · intro m e
    obtain ⟨hvalue, htrace⟩ := run_bound node e m
    obtain ⟨n, hmeans, hclamp⟩ := exists_means_account hwellFormed e
    refine ⟨n, ?_, hvalue.trans hclamp⟩
    rw [htrace]
    exact Trace.value?_of_means hmeans
  · intro σ engine t u o hrun hunclamped
    obtain ⟨os, rfl, -, hexact⟩ := explains_roll engine hwellFormed hrun
    apply Trace.value?_of_means
    apply hexact _ o (List.mem_singleton_self o)
    intro call hcall
    rw [Call.allStarted, Call.allStarted, List.append_nil] at hcall
    exact hunclamped call hcall

/-- Twice the sum of an exploding die, rolled as six and then three. -/
theorem doubled_exploding_die_trace :
    ∃ o u, Rolling.run (roll Engine.script
        (arithmetic 2 Tracer.silent .multiply 2
          (explode 1 Tracer.silent .equal none (die 0 (.sided 6)))))
          ⟨Memory.empty, [6, 3], #[]⟩ = (.ok o, u) ∧
      o.trace = "(6 + 3) * 2".toList ∧ Trace.value? o.trace = some 18 := by
  have hbuilt : (Build.arithmetic
      (some (explode 1 Tracer.silent .equal none (die 0 (.sided 6))))
      .multiply 2 Tracer.silent).Returns (arithmetic 2 Tracer.silent .multiply 2
        (explode 1 Tracer.silent .equal none (die 0 (.sided 6)))) :=
    ⟨⟨2, Traces.none, #[]⟩, rfl⟩
  have hoperand : Limits.Holds 2 := by decide
  have hnode := Constructed.arithmetic constructed_exploding_die hoperand hbuilt
  have hroll : Rolling.run (roll Engine.script
        (arithmetic 2 Tracer.silent .multiply 2
          (explode 1 Tracer.silent .equal none (die 0 (.sided 6)))))
          ⟨Memory.empty, [6, 3], #[]⟩ = _ := rfl
  refine ⟨_, _, hroll, rfl, ?_⟩
  refine (traces_are_true _ hnode).2 Engine.script _ _ _ hroll ?_
  decide +kernel

end Node
end DiceNotation
