import DiceNotation.Outcome

/-!
# Tracers

A tracer is told about every outcome of the modifiers it is attached to.  What
it does with an outcome is free: it may keep something in the journal, and it
may fail.  Notifying a tracer keeps what it kept and forgets its failure, so an
evaluation never depends on its tracers.
-/

namespace DiceNotation

/-- An observer of outcomes, with a name unless it keeps nothing. -/
structure Tracer where
  name : Option Text
  append : Outcome → ExceptT Text (StateM Journal) Unit

namespace Tracer

/-- The tracer that keeps nothing. -/
def silent : Tracer where
  name := none
  append _ := pure ()

/-- The tracer that logs a line for every outcome. -/
def logging (name : Text) (priority : Priority) : Tracer where
  name := some name
  append o := modify fun journal => journal.push (.line name priority o.message)

/-- The tracer that keeps every outcome. -/
def recording (name : Text) : Tracer where
  name := some name
  append o := modify fun journal => journal.push (.outcome name o)

/-- The tracer that keeps every outcome and then fails. -/
def failing (name : Text) : Tracer where
  name := some name
  append o := do
    modify fun journal => journal.push (.outcome name o)
    throw "refused".toList

/-- Why a tracer cannot be made. -/
inductive Error where
  | unknownPriority (priority : Priority)
  deriving DecidableEq, Repr

/-- The explanation of the error. -/
def Error.message : Error → Text
  | unknownPriority _ => "Unknown log priority".toList

/-- The logging tracer of a labelled priority. -/
def logging? (name : Text) (priority : Priority) : Except Error Tracer :=
  if priority.isLabelled then
    .ok (logging name priority)
  else
    .error (.unknownPriority priority)

/-- Tells the tracer about an outcome, and forgets a failure of the tracer. -/
def notify (tracer : Tracer) (o : Outcome) (journal : Journal) : Journal :=
  ((tracer.append o).run journal).2

@[simp]
theorem notify_silent (o : Outcome) (journal : Journal) :
    silent.notify o journal = journal :=
  rfl

@[simp]
theorem notify_logging (name : Text) (priority : Priority) (o : Outcome)
    (journal : Journal) :
    (logging name priority).notify o journal =
      journal.push (.line name priority o.message) :=
  rfl

@[simp]
theorem notify_recording (name : Text) (o : Outcome) (journal : Journal) :
    (recording name).notify o journal = journal.push (.outcome name o) :=
  rfl

/-- What a failing tracer kept before it failed stays in the journal. -/
@[simp]
theorem notify_failing (name : Text) (o : Outcome) (journal : Journal) :
    (failing name).notify o journal = journal.push (.outcome name o) :=
  rfl

end Tracer
end DiceNotation
