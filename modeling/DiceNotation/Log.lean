import DiceNotation.FixedPoint

/-!
# Log messages

A log message is made of fields, written one after another with single spaces
between them.  It has a priority, and a console log prints it behind its tag
and the label of the priority, on one of two streams.
-/

namespace DiceNotation

/-- The priority of a log message.  Only the levels one to seven have a
label. -/
structure Priority where
  level : Int
  deriving DecidableEq, Repr

namespace Priority

/-- The lowest labelled priority. -/
def default : Priority := ⟨1⟩

/-- The priority of debugging messages. -/
def debug : Priority := ⟨3⟩

/-- The priority of information. -/
def info : Priority := ⟨4⟩

/-- The least priority of messages that report trouble. -/
def warn : Priority := ⟨5⟩

/-- The label of the priority. -/
def label (p : Priority) : Text :=
  match p.level with
  | 1 => "DEFAULT".toList
  | 2 => "VERBOSE".toList
  | 3 => "DEBUG".toList
  | 4 => "INFO".toList
  | 5 => "WARN".toList
  | 6 => "ERROR".toList
  | 7 => "FATAL".toList
  | _ => "UNKNOWN".toList

/-- Whether the priority is one of the labelled ones. -/
def isLabelled (p : Priority) : Bool :=
  1 ≤ p.level && p.level ≤ 7

end Priority

namespace Log

/-- A field of a log message. -/
inductive Field where
  | text (s : Text)
  | terminated (s : Text)
  | letter (c : Char)
  | flag (b : Bool)
  | integer (n : Int)
  | real (x : Float)

/-- The field as it is written; a terminated text ends at its first NUL byte,
and a flag is written as a digit. -/
def Field.render : Field → Text
  | text s => s
  | terminated s => s.untilNul
  | letter c => [c]
  | flag b => if b then ['1'] else ['0']
  | integer n => numeral n
  | real x => FixedPoint.render x

/-- The message made of the fields. -/
def message (fields : List Field) : Text :=
  Text.words (fields.map Field.render)

/-- A log on a console, which drops messages below its threshold. -/
structure Console where
  tag : Text
  threshold : Priority

/-- What a console has printed on its two streams. -/
structure Streams where
  output : Text
  trouble : Text

/-- The line that a message is printed as. -/
def Console.line (console : Console) (p : Priority) (message : Text) : Text :=
  console.tag.untilNul ++ ' ' :: p.label ++ [':', ' '] ++
    message.untilNul ++ ['\n']

/-- Prints a message, unless its priority is below the threshold; trouble goes
to a stream of its own. -/
def Console.print (console : Console) (p : Priority) (message : Text)
    (streams : Streams) : Streams :=
  if p.level < console.threshold.level then
    streams
  else if p.level < Priority.warn.level then
    { streams with output := streams.output ++ console.line p message }
  else
    { streams with trouble := streams.trouble ++ console.line p message }

end Log
end DiceNotation
