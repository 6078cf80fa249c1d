import DiceNotation.Reading
import DiceNotation.Log

/-!
# Outcomes

An outcome is what one evaluation produced: its reading, the node it came from
and the method of the evaluation.  A journal keeps what tracers made of the
outcomes they were told about.
-/

namespace DiceNotation

/-- The identity of a node.  Different nodes have different identities, even
if they have the same shape. -/
abbrev NodeId := Nat

/-- The methods of evaluation; outcomes made by hand may have none of them. -/
inductive Method where
  | roll
  | minimum
  | maximum
  | unknown
  deriving DecidableEq, Repr

namespace Method

/-- The name of the method. -/
def name : Method → Text
  | roll => "Roll".toList
  | minimum => "Minimum".toList
  | maximum => "Maximum".toList
  | unknown => "Unknown".toList

/-- The method at a place in the list of methods. -/
def ofIndex : Int → Method
  | 0 => roll
  | 1 => minimum
  | 2 => maximum
  | _ => unknown

end Method

/-- The node that an outcome came from, with its dice expression. -/
structure Source where
  node : NodeId
  expression : Text
  deriving DecidableEq, Repr

/-- What an evaluation produced. -/
structure Outcome extends Reading where
  source : Option Source
  method : Method
  deriving DecidableEq, Repr

/-- The outcome as a log message:
method, dice expression, trace and value. -/
def Outcome.message (o : Outcome) : Text :=
  Log.message [
    .text o.method.name,
    .letter '-',
    .text ((o.source.map Source.expression).getD ['?']),
    .letter ':',
    .text o.trace,
    .letter '=',
    .integer o.value]

/-- What a tracer kept: a line of its log, or the outcome itself. -/
inductive Entry where
  | line (tracer : Text) (priority : Priority) (message : Text)
  | outcome (tracer : Text) (outcome : Outcome)
  deriving DecidableEq, Repr

/-- What all tracers kept, oldest entry first. -/
abbrev Journal := Array Entry

end DiceNotation
