import DiceNotation.Node.Basic

/-!
# Written form of dice expressions

Every node is written as a dice expression.  A pool is written as a sum in
which runs of the same die are counted, so three dice with six sides are
`3D6`.  A modifier puts its inner node into parentheses where it would bind
too loosely otherwise.
-/

namespace DiceNotation

/-- How tightly a written node holds together, tightest first. -/
inductive Binding where
  | group
  | select
  | explode
  | arithmetic
  | sum
  deriving DecidableEq, Repr

namespace Binding

/-- The place of the binding, zero for the tightest. -/
def rank : Binding → Nat
  | group => 0
  | select => 1
  | explode => 2
  | arithmetic => 3
  | sum => 4

/-- All bindings, tightest first. -/
def all : List Binding :=
  [group, select, explode, arithmetic, sum]

end Binding

/-- A summand of a written sum, with the die it stands for if it is one. -/
structure Summand where
  die : Option Die
  text : Text

namespace Summand

/-- A text with the number of its repetitions in front, unless there is only
one. -/
def counted (count : Nat) (text : Text) : Text :=
  if 1 < count then numeral count ++ text else text

/-- The texts of summands that follow `count` copies of `first`, and of these
copies; a run of the same die becomes one text. -/
def collapseAfter (first : Summand) (count : Nat) : List Summand → List Text
  | [] => [counted count first.text]
  | next :: rest =>
      if first.die.isSome && next.die = first.die then
        collapseAfter first (count + 1) rest
      else
        counted count first.text :: collapseAfter next 1 rest

/-- The texts of summands, with a single text for a run of the same die. -/
def collapse : List Summand → List Text
  | [] => []
  | first :: rest => collapseAfter first 1 rest

/-- The summands as a written sum; empty texts in front leave no sign. -/
def join (summands : List Summand) : Text :=
  ['+'].intercalate ((collapse summands).dropWhile List.isEmpty)

end Summand

namespace Node

/-- How tightly the written node holds together.  A pool of the same dice is a
single group, and a pool of one item is written as that item. -/
def binding : Node → Binding
  | die _ _ => .group
  | dropKeep _ _ _ _ _ => .select
  | explode _ _ _ _ _ => .explode
  | arithmetic _ _ _ _ _ => .arithmetic
  | pool _ [] => .group
  | pool _ [item] => item.binding
  | pool _ (first :: second :: rest) =>
      if first.die?.isSome &&
          (second :: rest).all fun item => item.die? = first.die? then
        .group
      else
        .sum

/-- A written node, in parentheses if it binds as loosely as `limit` or
looser. -/
def encloseAt (limit binding : Binding) (text : Text) : Text :=
  if limit.rank ≤ binding.rank then Text.parenthesize text else text

mutual

/-- The node as a dice expression. -/
def render : Node → Text
  | die _ d => d.render
  | pool _ items => Summand.join (summands items)
  | arithmetic _ _ op operand inner =>
      (if inner.binding = .sum ∨ 2 ≤ inner.chainLength then
        Text.parenthesize (render inner)
      else
        render inner) ++ op.symbol :: numeral operand
  | dropKeep _ _ selection threshold inner =>
      encloseAt .select inner.binding (render inner) ++ selection.code ++
        numeral threshold
  | explode _ _ comparator threshold inner =>
      encloseAt .explode inner.binding (render inner) ++ '!' ::
        match threshold with
        | none => if comparator = .equal then [] else [comparator.symbol]
        | some t => comparator.symbol :: numeral t

/-- Nodes as the summands of a written sum. -/
def summands : List Node → List Summand
  | [] => []
  | item :: rest => ⟨item.die?, render item⟩ :: summands rest

end

/-- The written node, in parentheses if it binds as loosely as `limit` or
looser. -/
def enclose (node : Node) (limit : Binding) : Text :=
  encloseAt limit node.binding node.render

/-- The summands of a pool are its items, one by one. -/
theorem summands_eq_map (items : List Node) :
    summands items = items.map fun item => ⟨item.die?, item.render⟩ := by
  induction items with
  | nil => rfl
  | cons item rest ih => rw [summands, ih, List.map_cons]

/-- The node as the source of outcomes. -/
def source (node : Node) : Source :=
  ⟨node.id, node.render⟩

/-- A reading of the node as the outcome of an evaluation. -/
def outcome (node : Node) (method : Method) (r : Reading) : Outcome :=
  ⟨r, some node.source, method⟩

end Node
end DiceNotation
