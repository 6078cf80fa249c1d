import DiceNotation.Limits
import DiceNotation.Node.Basic

/-!
# The grammar of dice expressions

Which texts are dice expressions, and which node a dice expression stands for.
The rules are those of the documentation:

    expression := term ('+' term)*
    term       := group select? explode? suffix{0,2}
    group      := count? 'D' sides | '(' expression ')'
    sides      := integer | 'F' | '%' | '[' signed (',' signed)* ']'
    select     := ('DH' | 'DL' | 'KH' | 'KL') integer?
    explode    := '!' (('=' | '>' | '<') signed? | integer?)
    suffix     := ('+' | '-' | '*' | '/' | '^') integer

They relate a text, in upper case and without blanks, to a node.  The
identities of nodes are left open.  Parentheses nest at most as deep as said,
and the greatest count is a parameter as well.

Neither a number nor anything else that may follow the sign of a suffix, of a
threshold or of a face goes on with `D` or an opening parenthesis.  So wherever
a plus sign has a group behind it, the rules only allow it to start a term.
-/

namespace DiceNotation
namespace Grammar

/-! ## Numbers -/

/-- The digits of a natural number, with or without zeros in front. -/
structure Decimal (s : Text) (n : Nat) : Prop where
  ne_nil : s ≠ []
  isDigit : ∀ c ∈ s, c.isDigit = true
  value_eq : Nat.ofDigitChars 10 s 0 = n

/-- A written integer without a sign. -/
structure Number (s : Text) (n : Nat) : Prop where
  decimal : Decimal s n
  holds : Limits.Holds n

/-- A written integer that may have a sign. -/
inductive Signed : Text → Int → Prop where
  | plain {s : Text} {n : Nat} : Number s n → Signed s n
  | plus {s : Text} {n : Nat} : Number s n → Signed ('+' :: s) n
  | minus {s : Text} {n : Nat} :
      Decimal s n → Limits.Holds (-(n : Int)) → Signed ('-' :: s) (-(n : Int))

/-! ## Dice -/

/-- Written faces, with commas between them. -/
inductive Faces : Text → List Int → Prop where
  | last {s : Text} {face : Int} : Signed s face → Faces s [face]
  | next {s t : Text} {face : Int} {faces : List Int} :
      Signed s face → Faces t faces → Faces (s ++ ',' :: t) (face :: faces)

/-- The written sides of a die. -/
inductive Sides : Text → Die → Prop where
  | number {s : Text} {n : Nat} : Number s n → 2 ≤ n → Sides s (.sided n)
  | fudge : Sides ['F'] .fudge
  | hundred : Sides ['%'] (.sided 100)
  | listed {s : Text} {faces : List Int} :
      Faces s faces → faces.length ≤ 1000 →
      Sides ('[' :: (s ++ [']'])) (.custom faces)

/-- A written count of dice, which is one if it is left out. -/
inductive Count (most : Nat) : Text → Nat → Prop where
  | omitted : Count most [] 1
  | number {s : Text} {n : Nat} : Number s n → 1 ≤ n → n ≤ most → Count most s n

/-- As many dice as said: a single die as it is, or a pool. -/
inductive Copies (d : Die) : Nat → Node → Prop where
  | single (id : NodeId) : Copies d 1 (.die id d)
  | several (id : NodeId) {ids : List NodeId} :
      ids.length ≠ 1 →
        Copies d ids.length (.pool id (ids.map fun id => .die id d))

/-! ## Modifiers -/

section Modifiers

variable (tracer : Tracer)

/-- A selection behind a node, if there is one. -/
inductive Selected (inner : Node) : Text → Node → Prop where
  | none : Selected inner [] inner
  | single (id : NodeId) (selection : Selection) :
      Selected inner selection.code (.dropKeep id tracer selection 1 inner)
  | threshold (id : NodeId) (selection : Selection) {s : Text} {n : Nat} :
      Number s n →
      Selected inner (selection.code ++ s)
        (.dropKeep id tracer selection n inner)

/-- An explosion behind a node, if there is one. -/
inductive Exploded (inner : Node) : Text → Node → Prop where
  | none : Exploded inner [] inner
  | plain (id : NodeId) :
      Exploded inner ['!'] (.explode id tracer .equal none inner)
  | threshold (id : NodeId) {s : Text} {n : Nat} :
      Number s n →
      Exploded inner ('!' :: s)
        (.explode id tracer .equal (some (n : Int)) inner)
  | comparator (id : NodeId) (c : Comparator) :
      Exploded inner ['!', c.symbol] (.explode id tracer c none inner)
  | compared (id : NodeId) (c : Comparator) {s : Text} {t : Int} :
      Signed s t →
      Exploded inner ('!' :: c.symbol :: s)
        (.explode id tracer c (some t) inner)

/-- Arithmetic suffixes behind a node, at most as many as said. -/
inductive Suffixed : Nat → Node → Text → Node → Prop where
  | none (allowed : Nat) (inner : Node) : Suffixed allowed inner [] inner
  | suffix {allowed n : Nat} {inner node : Node} {s t : Text}
      (id : NodeId) (op : Operator) :
      Number s n →
      Suffixed allowed (.arithmetic id tracer op n inner) t node →
      Suffixed (allowed + 1) inner (op.symbol :: (s ++ t)) node

end Modifiers

/-! ## Expressions -/

section Expressions

variable (most : Nat) (tracer : Tracer)

mutual

/-- A group of dice, or an expression in parentheses. -/
inductive Group : Nat → Text → Node → Prop where
  | dice {depth n : Nat} {s t : Text} {d : Die} {node : Node} :
      Count most s n → Sides t d → Copies d n node →
        Group depth (s ++ 'D' :: t) node
  | enclosed {depth : Nat} {s : Text} {node : Node} :
      Expression depth s node → Group (depth + 1) ('(' :: (s ++ [')'])) node

/-- A group with what modifies it. -/
inductive Term : Nat → Text → Node → Prop where
  | mk {depth : Nat} {s t u v : Text} {group selection explosion node : Node} :
      Group depth s group → Selected tracer group t selection →
      Exploded tracer selection u explosion →
      Suffixed tracer 2 explosion v node →
      Term depth (s ++ (t ++ (u ++ v))) node

/-- Terms with plus signs between them. -/
inductive Terms : Nat → Text → List Node → Prop where
  | last {depth : Nat} {s : Text} {node : Node} :
      Term depth s node → Terms depth s [node]
  | next {depth : Nat} {s t : Text} {node : Node} {nodes : List Node} :
      Term depth s node → Terms depth t nodes →
        Terms depth (s ++ '+' :: t) (node :: nodes)

/-- A single term, or a pool of several terms. -/
inductive Expression : Nat → Text → Node → Prop where
  | term {depth : Nat} {s : Text} {node : Node} :
      Terms depth s [node] → Expression depth s node
  | sum {depth : Nat} {s : Text} {nodes : List Node} (id : NodeId) :
      Terms depth s nodes → nodes.length ≠ 1 →
        Expression depth s (.pool id nodes)

end

end Expressions

end Grammar
end DiceNotation
