import DiceNotation.Proofs.Operator
import DiceNotation.Proofs.Parse.Constructed
import DiceNotation.Proofs.Roll.Table

/-!
# Every roll can be brought to an end

A node with exact bounds rolls both of them, and of the bounds of a member that
is not endless at least one does not call for another roll.  So whatever the
engine has answered so far, a roll of a well-formed node can still come to its
end: the draws of every burst use up some of the answers so far, and when none
are left the burst is stopped.
-/

namespace DiceNotation

/-- The answer lies in the range that was asked for. -/
def Draw.InRange (d : Draw) : Prop :=
  d.low ≤ d.answer ∧ d.answer ≤ d.high

/-- The number that a scripted engine answers a request with. -/
def Draw.scripted (low high n : Int) : Int :=
  low + (n - low) % (high - low + 1)

/-- As long as the script lasts, the draws have the answers of a scripted
engine. -/
inductive Follows : List Int → List Draw → Prop where
  | ended (p : List Int) : Follows p []
  | free (ds : List Draw) : Follows [] ds
  | cons {n : Int} {p : List Int} {d : Draw} {ds : List Draw} :
      d.answer = Draw.scripted d.low d.high n → Follows p ds →
        Follows (n :: p) (d :: ds)

theorem Follows.append
    {p : List Int} {ds es : List Draw}
    (hds : Follows p ds)
    (hes : Follows (p.drop ds.length) es) :
    Follows p (ds ++ es) := by
  induction hds with
  | ended => exact hes
  | free => exact .free _
  | cons hanswer _ ih => exact .cons hanswer (ih hes)

/-- The draws can be made by a scripted engine whose script is continued by
the answers of the remaining draws. -/
theorem Follows.answers
    {p : List Int} {ds : List Draw}
    (h : Follows p ds)
    (hds : ∀ d ∈ ds, d.InRange) :
    Engine.script.Answers (p ++ (ds.drop p.length).map Draw.answer) ds
      (p.drop ds.length) := by
  induction h with
  | ended p =>
      rw [List.drop_nil, List.map_nil, List.append_nil]
      exact .nil p
  | free ds =>
      rw [List.drop_nil]
      induction ds with
      | nil => exact .nil []
      | cons d ds ih =>
          obtain ⟨hlow, hhigh⟩ := hds d List.mem_cons_self
          have hrest :=
            ih fun other hother => hds other (List.mem_cons_of_mem d hother)
          exact .cons (Engine.script_answer_of_mem _ hlow hhigh) hrest
  | cons hanswer _ ih =>
      have hrest :=
        ih fun other hother => hds other (List.mem_cons_of_mem _ hother)
      refine .cons ?_ hrest
      rw [hanswer]
      rfl

namespace Node

section Sequences

variable {once : Node → List Draw → Reading → Prop}

theorem Each.inRange
    {nodes : List Node} {ds : List Draw} {rs : List Reading}
    (h : Each once nodes ds rs)
    (honce : ∀ node ∈ nodes, ∀ ds r, once node ds r → ∀ d ∈ ds, d.InRange) :
    ∀ d ∈ ds, d.InRange := by
  induction h with
  | nil => exact List.forall_mem_nil _
  | cons hroll _ ih =>
      rw [List.forall_mem_append]
      exact ⟨honce _ List.mem_cons_self _ _ hroll,
        ih fun node hnode => honce node (List.mem_cons_of_mem _ hnode)⟩

theorem Burst.inRange
    {node : Node} {comparator : Comparator}
    {threshold : Option Int} {ds : List Draw} {rs : List Reading}
    (h : Burst once ds rs comparator threshold node)
    (honce : ∀ ds r, once node ds r → ∀ d ∈ ds, d.InRange) :
    ∀ d ∈ ds, d.InRange := by
  induction h with
  | stop hroll _ => exact honce _ _ hroll
  | again hroll _ _ ih =>
      rw [List.forall_mem_append]
      exact ⟨honce _ _ hroll, ih honce⟩

theorem Bursts.inRange
    {nodes : List Node} {ds : List Draw} {blocks : List (List Reading)}
    {comparator : Comparator} {threshold : Option Int}
    (h : Bursts once nodes ds blocks comparator threshold)
    (honce : ∀ node ∈ nodes, ∀ ds r, once node ds r → ∀ d ∈ ds, d.InRange) :
    ∀ d ∈ ds, d.InRange := by
  induction h with
  | nil => exact List.forall_mem_nil _
  | cons hburst _ ih =>
      rw [List.forall_mem_append]
      exact ⟨hburst.inRange (honce _ List.mem_cons_self),
        ih fun node hnode => honce node (List.mem_cons_of_mem _ hnode)⟩

end Sequences

/-- All draws of a roll are answered in range. -/
theorem Rolls.inRange
    {node : Node} {ds : List Draw} {r : Reading}
    (h : Rolls node ds r) :
    ∀ d ∈ ds, d.InRange := by
  induction node using induction_members generalizing ds r with
  | die id d =>
      cases h with
      | die hlow hhigh =>
          intro other hother
          rw [List.mem_singleton.mp hother]
          exact ⟨hlow, hhigh⟩
  | pool id items ih =>
      cases h with
      | pool hrolls => exact hrolls.inRange fun item hitem ds r => ih item hitem
  | arithmetic id tracer op operand inner ih =>
      cases h with
      | arithmetic hroll => exact ih hroll
  | dropKeep id tracer selection threshold inner _ ih =>
      cases h with
      | dropKeep hrolls =>
          exact hrolls.inRange fun member hmember ds r => ih member hmember
  | explode id tracer comparator threshold inner _ ih =>
      cases h with
      | explode hrolls =>
          exact hrolls.inRange fun member hmember ds r => ih member hmember

/-! ## Exact bounds are rolled -/

theorem exists_each_of_forall
    {once : Node → List Draw → Reading → Prop}
    {nodes : List Node} {f : Node → Int}
    (h : ∀ node ∈ nodes, ∃ ds r, once node ds r ∧ r.value = f node) :
    ∃ ds rs, Each once nodes ds rs ∧ rs.map Reading.value = nodes.map f := by
  induction nodes with
  | nil => exact ⟨[], [], .nil, rfl⟩
  | cons node rest ih =>
      obtain ⟨ds, r, hroll, hvalue⟩ := h node List.mem_cons_self
      obtain ⟨es, rs, hrest, hvalues⟩ :=
        ih fun other hother => h other (List.mem_cons_of_mem _ hother)
      refine ⟨ds ++ es, r :: rs, .cons hroll hrest, ?_⟩
      rw [List.map_cons, List.map_cons, hvalue, hvalues]

/-- A listed face is rolled. -/
theorem exists_rolls_of_mem_listedFaces
    {node : Node} {x : Int}
    (h : x ∈ node.listedFaces) :
    ∃ ds r, Rolls node ds r ∧ r.value = x := by
  cases node with
  | die id d =>
      obtain ⟨n, hlow, hhigh, hn⟩ := Die.exists_face_of_mem h
      exact ⟨_, _, .die hlow hhigh, hn⟩
  | _ => exact absurd h List.not_mem_nil

/-- A well-formed node with exact bounds rolls both of them. -/
theorem exists_rolls_extreme
    {node : Node}
    (hnode : node.WellFormed)
    (hexact : node.isExact = true)
    (e : Extreme) :
    ∃ ds r, Rolls node ds r ∧ r.value = node.extreme e := by
  induction hnode generalizing e with
  | die hd =>
      obtain ⟨n, hlow, hhigh, hn⟩ := Die.exists_face_bound hd e
      exact ⟨_, _, .die hlow hhigh, hn⟩
  | pool _ ih =>
      rw [isExact_pool, List.all_eq_true] at hexact
      obtain ⟨ds, rs, hrolls, hvalues⟩ :=
        exists_each_of_forall fun item hitem =>
          ih item hitem (hexact item hitem) e
      refine ⟨ds, _, .pool hrolls, ?_⟩
      rw [Reading.value_total, hvalues, extreme_pool]
  | @arithmetic id tracer op operand inner _ _ _ ih =>
      rw [isExact_arithmetic, Bool.and_eq_true] at hexact
      have hstart : ∃ ds r, Rolls inner ds r ∧
          r.value = op.boundAt operand inner.listedFaces (inner.extreme .least)
            (inner.extreme .greatest) e := by
        rcases Operator.boundAt_cases e with h | h | h |
          ⟨heven, hfaces, hlow, hhigh⟩
        · rw [h]
          exact ih hexact.1 .least
        · rw [h]
          exact ih hexact.1 .greatest
        · exact exists_rolls_of_mem_listedFaces h
        · have hkeeps := hexact.2
          simp only [keepsExact, heven, hfaces, Bool.or_eq_true,
            decide_eq_true_eq, Bool.not_true, List.isEmpty_nil,
            Bool.false_eq_true, false_or] at hkeeps
          omega
      obtain ⟨ds, r, hroll, hvalue⟩ := hstart
      refine ⟨ds, _, .arithmetic hroll, ?_⟩
      rw [extreme_arithmetic, Reading.operate, hvalue]
  | @dropKeep id tracer selection threshold inner _ _ _ _ ih =>
      rw [isExact_dropKeep, isExact_iff_members] at hexact
      obtain ⟨ds, rs, hrolls, hvalues⟩ :=
        exists_each_of_forall fun member hmember =>
          ih member hmember (hexact member hmember) e
      refine ⟨ds, _, .dropKeep hrolls, ?_⟩
      rw [Reading.chosen, Reading.value_total_ofValue, hvalues,
        extreme_dropKeep]
  | explode => cases hexact

/-- A well-formed node with exact bounds that is not endless shows a result
that does not call for another roll. -/
theorem exists_rolls_stop
    {node : Node} {comparator : Comparator} {threshold : Option Int}
    (hnode : node.WellFormed)
    (hexact : node.isExact = true)
    (hend : ¬Endless comparator threshold node) :
    ∃ ds r, Rolls node ds r ∧
      comparator.triggers (node.limit threshold) r.value = false := by
  have hstop : ∃ e,
      comparator.triggers (node.limit threshold) (node.extreme e) = false := by
    cases comparator with
    | equal =>
        simp only [Endless, Comparator.isEndless, Bool.and_eq_true,
          decide_eq_true_eq] at hend
        simp only [Comparator.triggers, decide_eq_false_iff_not]
        by_cases hhigh : node.extreme .greatest = node.limit threshold
        · exact ⟨.least, fun hlow => hend ⟨hhigh.symm, hlow.trans hhigh.symm⟩⟩
        · exact ⟨.greatest, hhigh⟩
    | greater =>
        simp only [Endless, Comparator.isEndless, decide_eq_true_eq] at hend
        simp only [Comparator.triggers, decide_eq_false_iff_not]
        exact ⟨.least, by omega⟩
    | less =>
        simp only [Endless, Comparator.isEndless, decide_eq_true_eq] at hend
        simp only [Comparator.triggers, decide_eq_false_iff_not]
        exact ⟨.greatest, by omega⟩
  obtain ⟨e, he⟩ := hstop
  obtain ⟨ds, r, hroll, hvalue⟩ := exists_rolls_extreme hnode hexact e
  refine ⟨ds, r, hroll, ?_⟩
  rw [hvalue]
  exact he

/-! ## From every script to the end -/

section Progress

variable {once : Node → List Draw → Reading → Prop}

theorem exists_each_follows
    {nodes : List Node}
    (h : ∀ node ∈ nodes, ∀ p, ∃ ds r, once node ds r ∧ Follows p ds)
    (p : List Int) :
    ∃ ds rs, Each once nodes ds rs ∧ Follows p ds := by
  induction nodes generalizing p with
  | nil => exact ⟨[], [], .nil, .ended p⟩
  | cons node rest ih =>
      obtain ⟨ds, r, hroll, hds⟩ := h node List.mem_cons_self p
      obtain ⟨es, rs, hrest, hes⟩ :=
        ih (fun other hother => h other (List.mem_cons_of_mem _ hother))
          (p.drop ds.length)
      exact ⟨ds ++ es, r :: rs, .cons hroll hrest, hds.append hes⟩

/-- A burst follows every script and ends, if a roll can follow every script
and some roll does not call for another one. -/
theorem exists_burst_follows
    {node : Node} {comparator : Comparator} {threshold : Option Int}
    (hdetermined : Determined (once node))
    (hstop : ∃ ds r, once node ds r ∧
      comparator.triggers (node.limit threshold) r.value = false)
    (h : ∀ p, ∃ ds r, once node ds r ∧ Follows p ds)
    (p : List Int) :
    ∃ ds rs, Burst once ds rs comparator threshold node ∧ Follows p ds := by
  obtain ⟨es, s, hlast, hstops⟩ := hstop
  -- Every round but the last uses up some of the script.
  induction hlength : p.length using Nat.strong_induction_on generalizing p with
  | _ k ih =>
      by_cases hp : p = []
      · rw [hp]
        exact ⟨es, [s], .stop hlast hstops, .free es⟩
      · obtain ⟨ds, r, hroll, hds⟩ := h p
        cases htriggers :
          comparator.triggers (node.limit threshold) r.value with
        | false => exact ⟨ds, [r], .stop hroll htriggers, hds⟩
        | true =>
            have hne :=
              ne_nil_of_triggers hdetermined hroll htriggers hlast hstops
            have hpos := List.length_pos_iff.mpr hne
            have hppos := List.length_pos_iff.mpr hp
            have hshorter : (p.drop ds.length).length < k := by
              rw [List.length_drop]
              omega
            obtain ⟨us, rs, hburst, hus⟩ := ih _ hshorter (p.drop ds.length) rfl
            exact ⟨ds ++ us, r :: rs, .again hroll htriggers hburst,
              hds.append hus⟩

theorem exists_bursts_follows
    {nodes : List Node} {comparator : Comparator} {threshold : Option Int}
    (h : ∀ node ∈ nodes, ∀ p, ∃ ds rs,
      Burst once ds rs comparator threshold node ∧ Follows p ds)
    (p : List Int) :
    ∃ ds blocks, Bursts once nodes ds blocks comparator threshold ∧
      Follows p ds := by
  induction nodes generalizing p with
  | nil => exact ⟨[], [], .nil, .ended p⟩
  | cons node rest ih =>
      obtain ⟨ds, rs, hburst, hds⟩ := h node List.mem_cons_self p
      obtain ⟨es, blocks, hrest, hes⟩ :=
        ih (fun other hother => h other (List.mem_cons_of_mem _ hother))
          (p.drop ds.length)
      exact ⟨ds ++ es, rs :: blocks, .cons hburst hrest, hds.append hes⟩

end Progress

/-- Whatever a scripted engine has answered so far, a roll of a well-formed
node can still come to its end. -/
theorem exists_rolls_follows
    {node : Node}
    (hnode : node.WellFormed)
    (p : List Int) :
    ∃ ds r, Rolls node ds r ∧ Follows p ds := by
  induction hnode generalizing p with
  | @die id d hd =>
      have hle := Die.range_le hd
      cases p with
      | nil => exact ⟨_, _, .die le_rfl hle, .free _⟩
      | cons n p =>
          have hlow := Int.emod_nonneg (n - d.range.1)
            (by omega : d.range.2 - d.range.1 + 1 ≠ 0)
          have hhigh :=
            Int.emod_lt_of_pos (n - d.range.1)
              (by omega : 0 < d.range.2 - d.range.1 + 1)
          have hanswer : d.range.1 ≤ Draw.scripted d.range.1 d.range.2 n ∧
              Draw.scripted d.range.1 d.range.2 n ≤ d.range.2 := by
            unfold Draw.scripted
            omega
          exact ⟨_, _, .die hanswer.1 hanswer.2, .cons rfl (.ended p)⟩
  | pool _ ih =>
      obtain ⟨ds, rs, hrolls, hds⟩ := exists_each_follows ih p
      exact ⟨ds, _, .pool hrolls, hds⟩
  | arithmetic _ _ _ ih =>
      obtain ⟨ds, r, hroll, hds⟩ := ih p
      exact ⟨ds, _, .arithmetic hroll, hds⟩
  | dropKeep _ _ _ _ ih =>
      obtain ⟨ds, rs, hrolls, hds⟩ := exists_each_follows ih p
      exact ⟨ds, _, .dropKeep hrolls, hds⟩
  | @explode id tracer comparator threshold inner hmembers _ hexplodable ih =>
      have hbursts := fun member hmember =>
        exists_burst_follows (determined_rolls member)
          (exists_rolls_stop (hmembers member hmember)
            (hexplodable.exact_members member hmember)
            (hexplodable.not_endless_members member hmember))
          (ih member hmember)
      obtain ⟨ds, blocks, hrolls, hds⟩ := exists_bursts_follows hbursts p
      exact ⟨ds, _, .explode hrolls, hds⟩

/-- The numbers of a script lie in the ranges that were asked for. -/
def Answered (script : List Int) (requests : List (Int × Int)) : Prop :=
  List.Forall₂ (fun n request => request.1 ≤ n ∧ n ≤ request.2) script requests

theorem answered_of_inRange
    {ds : List Draw}
    (h : ∀ d ∈ ds, d.InRange) :
    Answered (ds.map Draw.answer) (ds.map Draw.request) := by
  rw [Answered, List.forall₂_map_left_iff, List.forall₂_map_right_iff,
    List.forall₂_same]
  exact h

/-- The roll that a script begins is continued by the answers of the draws that
follow the script. -/
theorem exists_run_of_rolls
    {node : Node} {p : List Int} {ds : List Draw} {r : Reading}
    (hnode : node.WellFormed)
    (hrolls : Rolls node ds r)
    (hfollows : Follows p ds)
    (m : Memory) :
    ∃ q o u, Rolling.run (roll Engine.script node)
      ⟨m, p ++ q, #[]⟩ = (.ok o, u) ∧
      o.toReading = r ∧ Answered q (u.requests.toList.drop p.length) := by
  have hanswers := hfollows.answers hrolls.inRange
  obtain ⟨o, u, hrun, hvalue, hadvances⟩ :=
    (realizes_roll Engine.inRange_script hnode).complete
      (t := ⟨m, _, #[]⟩) hrolls hanswers
  refine ⟨_, o, u, hrun, hvalue, ?_⟩
  have hrequests : u.requests.toList = ds.map Draw.request := hadvances.requests
  rw [hrequests, ← List.map_drop]
  exact answered_of_inRange fun d hd =>
    hrolls.inRange d (List.mem_of_mem_drop hd)

/-- Accepted explosions can always stop.  Whatever numbers a scripted engine
gives first to a roll of a constructed node, there are more numbers, all in the
ranges that are asked for, with which the roll returns; what is read from text
is constructed; and every member of an accepted explosion can show a result
that does not call for another roll. -/
theorem accepted_explosions_can_stop :
    (∀ node, Constructed node → ∀ (m : Memory) (p : List Int), ∃ q o u,
      Rolling.run (roll Engine.script node) ⟨m, p ++ q, #[]⟩ = (.ok o, u) ∧
      Answered q (u.requests.toList.drop p.length)) ∧
    (∀ tracer text node, (parse tracer text).Returns node → Constructed node) ∧
    (∀ (inner : Node) (comparator : Comparator) (threshold : Option Int)
      (tracer : Tracer) (node : Node), Constructed inner →
        (Build.explode (some inner) comparator threshold tracer).Returns node →
        ∀ member ∈ inner.members, ∀ m m' : Memory, ∃ q o u,
          Rolling.run (roll Engine.script member) ⟨m, q, #[]⟩ = (.ok o, u) ∧
          Answered q u.requests.toList ∧
          comparator.triggers (threshold.getD (member.maximum.run m').1)
            o.value = false) := by
  refine ⟨?_,
    fun tracer text node h => (Parse.parsed_of_parse h).constructed, ?_⟩
  · intro node hnode m p
    have hwellFormed := hnode.wellFormed
    obtain ⟨ds, r, hrolls, hfollows⟩ := exists_rolls_follows hwellFormed p
    obtain ⟨q, o, u, hrun, -, hanswered⟩ :=
      exists_run_of_rolls hwellFormed hrolls hfollows m
    exact ⟨q, o, u, hrun, hanswered⟩
  · intro inner comparator threshold tracer node hinner hnode
      member hmember m m'
    obtain ⟨hexplodable, -⟩ := (Build.accepts_explode _ _ _ _).of_returns hnode
    have hwellFormed :=
      (wellFormed_iff_members inner).mp hinner.wellFormed member hmember
    obtain ⟨ds, r, hrolls, hstops⟩ := exists_rolls_stop hwellFormed
      (hexplodable.exact_members member hmember)
      (hexplodable.not_endless_members member hmember)
    obtain ⟨q, o, u, hrun, hvalue, hanswered⟩ :=
      exists_run_of_rolls hwellFormed hrolls (.free ds) m
    refine ⟨q, o, u, hrun, hanswered, ?_⟩
    rw [maximum, gives_bound member .greatest m', ← limit, hvalue]
    exact hstops

/-- A die that explodes on its highest side can stop after two sixes. -/
theorem exploding_die_can_stop :
    Constructed (explode 1 Tracer.silent .equal none (die 0 (.sided 6))) ∧
    (∃ q o u,
      Rolling.run
        (roll Engine.script
          (explode 1 Tracer.silent .equal none (die 0 (.sided 6))))
        ⟨Memory.empty, [6, 6] ++ q, #[]⟩ = (.ok o, u) ∧
      Answered q (u.requests.toList.drop 2)) ∧
    ∃ q o u,
      Rolling.run (roll Engine.script (die 0 (.sided 6)))
        ⟨Memory.empty, q, #[]⟩ = (.ok o, u) ∧
      Answered q u.requests.toList ∧
      Comparator.equal.triggers 6 o.value = false := by
  have hdie : Constructed (die 0 (.sided 6)) := by
    have hsides : Limits.Holds 6 := by decide
    exact .sided hsides rfl ⟨Memory.empty, rfl⟩
  have hexplode :
      (Build.explode (some (die 0 (.sided 6))) .equal none
        Tracer.silent).Returns
        (explode 1 Tracer.silent .equal none (die 0 (.sided 6))) :=
    ⟨⟨1, Traces.none, #[]⟩, rfl⟩
  have hparse : (parse Tracer.silent ['d', '6', '!']).Returns
      (explode 1 Tracer.silent .equal none (die 0 (.sided 6))) :=
    ⟨Memory.empty, by cbv⟩
  have hconstructed := accepted_explosions_can_stop.2.1 _ _ _ hparse
  refine ⟨hconstructed, ?_, ?_⟩
  · exact accepted_explosions_can_stop.1 _ hconstructed Memory.empty [6, 6]
  · exact accepted_explosions_can_stop.2.2 _ _ _ _ _ hdie hexplode _
      List.mem_cons_self Memory.empty Memory.empty

/-- Exact bounds are rolled.  If a constructed node says that its bounds are
exact, then there is a script of numbers, all in the ranges that are asked for,
with which a roll of the node returns its least value, and another one with
which it returns its greatest value. -/
theorem exact_bounds_are_rolled
    {node : Node}
    (hnode : Constructed node)
    {m : Memory}
    (hexact : (node.hasExactBounds.run m).1 = true)
    (m' m'' : Memory) :
    (∃ q o u, Rolling.run (roll Engine.script node) ⟨m', q, #[]⟩ = (.ok o, u) ∧
      Answered q u.requests.toList ∧ o.value = (node.minimum.run m'').1) ∧
    ∃ q o u, Rolling.run (roll Engine.script node) ⟨m', q, #[]⟩ = (.ok o, u) ∧
      Answered q u.requests.toList ∧ o.value = (node.maximum.run m'').1 := by
  have hwellFormed := hnode.wellFormed
  rw [gives_hasExactBounds node m] at hexact
  have hextreme (e : Extreme) : ∃ q o u,
      Rolling.run (roll Engine.script node) ⟨m', q, #[]⟩ = (.ok o, u) ∧
        Answered q u.requests.toList ∧ o.value = node.extreme e := by
    obtain ⟨ds, r, hrolls, hvalue⟩ := exists_rolls_extreme hwellFormed hexact e
    obtain ⟨q, o, u, hrun, hreading, hanswered⟩ :=
      exists_run_of_rolls hwellFormed hrolls (.free ds) m'
    refine ⟨q, o, u, hrun, hanswered, ?_⟩
    rw [hreading, hvalue]
  rw [minimum, maximum, gives_bound node .least m'',
    gives_bound node .greatest m'']
  exact ⟨hextreme .least, hextreme .greatest⟩

/-- The square of a die with faces around zero shows one and nine: the least
value comes from a face between its bounds. -/
theorem square_around_zero_is_rolled :
    ∃ node, Constructed node ∧ node.render = "D[-3,1,2]^2".toList ∧
      (node.hasExactBounds.run Memory.empty).1 = true ∧
      (∃ q o u,
        Rolling.run (roll Engine.script node) ⟨Memory.empty, q, #[]⟩ =
          (.ok o, u) ∧
        Answered q u.requests.toList ∧ o.value = 1) ∧
      ∃ q o u,
        Rolling.run (roll Engine.script node) ⟨Memory.empty, q, #[]⟩ =
          (.ok o, u) ∧
        Answered q u.requests.toList ∧ o.value = 9 := by
  have hread : (parse Tracer.silent "D[-3,1,2]^2".toList).Returns
      (arithmetic 1 Tracer.silent .power 2 (die 0 (.custom [-3, 1, 2]))) :=
    ⟨Memory.empty, by cbv⟩
  have hconstructed := (Parse.parsed_of_parse hread).constructed
  refine ⟨_, hconstructed, rfl, rfl, ?_⟩
  exact exact_bounds_are_rolled hconstructed
    (m := Memory.empty) rfl Memory.empty Memory.empty

end Node
end DiceNotation
