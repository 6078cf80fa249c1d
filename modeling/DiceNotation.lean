import DiceNotation.Engine.Seeded
import DiceNotation.Log
import DiceNotation.Node.Roll
import DiceNotation.Parse.Expression
import DiceNotation.Proofs.Engine.Uniform
import DiceNotation.Proofs.Grammar.Completeness
import DiceNotation.Proofs.Grammar.Soundness
import DiceNotation.Proofs.History.Multiplicity
import DiceNotation.Proofs.History.Recorders
import DiceNotation.Proofs.Node.Acceptance
import DiceNotation.Proofs.Node.Exactness
import DiceNotation.Proofs.Notation.Collapsing
import DiceNotation.Proofs.Notation.Derivable
import DiceNotation.Proofs.Notation.RoundTrip
import DiceNotation.Proofs.Notation.Stability
import DiceNotation.Proofs.Parse.Enclosed
import DiceNotation.Proofs.Parse.Failure
import DiceNotation.Proofs.Parse.Height
import DiceNotation.Proofs.Parse.Integers
import DiceNotation.Proofs.Roll.Enclosure
import DiceNotation.Proofs.Roll.Explosion
import DiceNotation.Proofs.Roll.Ranking
import DiceNotation.Proofs.Roll.Replication
import DiceNotation.Proofs.Roll.Schedule
import DiceNotation.Proofs.Roll.Stopping
import DiceNotation.Proofs.Safety.Evaluation
import DiceNotation.Proofs.Session.Independence
import DiceNotation.Proofs.Session.Tracers
import DiceNotation.Proofs.Trace.Truth
