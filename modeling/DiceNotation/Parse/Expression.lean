import DiceNotation.Parse.Dice

/-!
# Reading dice expressions

The grammar of dice expressions, over normalized text:

    expression := term ('+' term)*
    term       := group select? explode? suffix{0,2}
    group      := count? 'D' sides | '(' expression ')'
    sides      := integer | 'F' | '%' | '[' signed (',' signed)* ']'
    select     := ('DH' | 'DL' | 'KH' | 'KL') integer?
    explode    := '!' (('=' | '>' | '<') signed? | integer?)
    suffix     := ('+' | '-' | '*' | '/' | '^') integer

A plus sign in front of a group starts another term.  Nodes are built as soon
as they are read, so the first fault from the left is the one that is found,
whether it is one of the text or of a node's parameters.
-/

namespace DiceNotation
namespace Parse

/-- The most arithmetic suffixes of a term. -/
def mostSuffixes : Nat := 2

/-- Reads a group: an expression in parentheses, unless no more of them may
nest, or dice. -/
def group (whole : Text) (inner : Option (Reader Node)) : Reader Node
  | '(' :: rest =>
      match inner with
      | none => refuse .nestedTooDeep
      | some expression => do
          let (node, rest) ← expression rest
          let (_, rest) ← scanned (expect ')' whole rest)
          return (node, rest)
  | s => dice whole s

/-- Reads a selection behind a node, if there is one.  Its threshold is one if
it is left out. -/
def selected (tracer : Tracer) (node : Node) : Reader Node := fun s => do
  match ← scanned (selection s) with
  | (none, rest) => return (node, rest)
  | (some selection, rest) =>
      let (threshold, rest) ← scanned (integer false rest)
      return (← Build.dropKeep (some node) selection
        (threshold.getD 1) tracer, rest)

/-- Reads an explosion behind a node, if there is one.  A threshold may have a
sign only behind a comparator; otherwise the sign is an operator. -/
def exploded (tracer : Tracer) (node : Node) : Reader Node
  | '!' :: rest => do
      let (comparator, rest) := comparator rest
      let (threshold, rest) ← scanned (integer comparator.isSome rest)
      return (← Build.explode (some node) (comparator.getD .equal)
        threshold tracer, rest)
  | s => return (node, s)

/-- Reads an arithmetic suffix, if there is one. -/
def suffix (whole : Text) : Scan (Option (Operator × Int)) := fun s =>
  match operator s with
  | none => .ok (none, s)
  | some (op, rest) => do
      match ← integer false rest with
      | (some n, rest) => .ok (some (op, n), rest)
      | (none, rest) => .error (.missingOperand rest whole)

/-- Reads the arithmetic suffixes behind a node, as many as are still
allowed. -/
def suffixed (tracer : Tracer) (whole : Text) : Nat → Node → Reader Node
  | allowed, node, s => do
      match ← scanned (suffix whole s) with
      | (none, rest) => return (node, rest)
      | (some (op, n), rest) =>
          match allowed with
          | 0 => refuse (.tooManyOperators s)
          | allowed + 1 =>
              let node ← Build.arithmetic (some node) op n tracer
              suffixed tracer whole allowed node rest

/-- Reads a term: a group and what modifies it. -/
def term (tracer : Tracer) (whole : Text) (group : Reader Node) :
    Reader Node := fun s => do
  let (node, rest) ← group s
  let (node, rest) ← selected tracer node rest
  let (node, rest) ← exploded tracer node rest
  suffixed tracer whole mostSuffixes node rest

/-- Reads terms with plus signs between them, as many as the limit says. -/
def terms (term : Reader Node) : Nat → Reader (List Node)
  | 0, s => return ([], s)
  | limit + 1, s => do
      let (node, rest) ← term s
      match rest with
      | '+' :: more =>
          if startsGroup more then
            let (others, rest) ← terms term limit more
            return (node :: others, rest)
          else
            return ([node], rest)
      | _ => return ([node], rest)

/-- Reads a sum of terms.  There are fewer terms than characters, so their
number needs no limit of its own. -/
def sum (term : Reader Node) : Reader Node := fun s => do
  match ← terms term (s.length + 1) s with
  | ([node], rest) => return (node, rest)
  | (nodes, rest) => return (← Build.pool (nodes.map some), rest)

/-- Reads an expression in which parentheses nest at most as deep as said. -/
def expression (tracer : Tracer) (whole : Text) : Nat → Reader Node
  | 0 => sum (term tracer whole (group whole none))
  | depth + 1 =>
      sum (term tracer whole
        (group whole (some (expression tracer whole depth))))

/-- Reads a normalized text as an expression, to its end. -/
def wholeText (tracer : Tracer) (whole : Text) : Building Node := do
  if whole = [] then
    refuse .empty
  else
    let (node, rest) ← expression tracer whole deepestNesting whole
    if rest = [] then
      return node
    else
      refuse (.unexpected rest whole)

end Parse

/-- Reads a dice expression in any case and with any blanks.  The tracer is
attached to all modifiers. -/
def parse (tracer : Tracer) (text : Text) : Building Node :=
  Parse.wholeText tracer text.normalize

end DiceNotation
