import DiceNotation.Comparator
import DiceNotation.Die
import DiceNotation.Limits

/-!
# Why a dice expression is refused

Building a node may be refused for one of the causes below.  Every cause
belongs to a kind and has an explanation.  An explanation ends at the first
NUL byte, which only text quoted from the input can bring in.
-/

namespace DiceNotation

/-- What can be wrong with the text of a dice expression. -/
inductive SyntaxFault where
  | empty
  | unexpected (rest whole : Text)
  | expected (c : Char) (rest whole : Text)
  | outOfRange (numeral : Text)
  | nestedTooDeep
  | countTooSmall (count : Text)
  | countTooLarge (count : Text)
  | missingDie (group whole : Text)
  | missingFace (rest whole : Text)
  | tooManyFaces
  | tooFewSides (group : Text)
  | unknownSelection (code : Text)
  | missingOperand (rest whole : Text)
  | tooManyOperators (suffix : Text)
  deriving DecidableEq, Repr

/-- The causes for which a node is refused. -/
inductive Error where
  | tooFewSides (sides : Int)
  | noFaces
  | tooManyFaces
  | missingItem
  | poolTooSmall (count : Int)
  | poolTooLarge (count : Int)
  | missingInner
  | missingOperandNode
  | emptySelection
  | emptyExplosion
  | unknownOperator (code : Text)
  | negativeOperand (operand : Int)
  | divisionByZero
  | unknownSelection (code : Text)
  | negativeThreshold (threshold : Int)
  | tooManyChosen (threshold size : Nat) (pool : Text)
  | unknownComparator (code : Text)
  | unprovenExplosion (node : Text)
  | endlessExplosion (node : Text) (comparator : Comparator) (threshold : Int)
  | badSyntax (fault : SyntaxFault)
  deriving DecidableEq, Repr

/-- The kinds of causes. -/
inductive ErrorKind where
  | die
  | pool
  | operator
  | operand
  | selection
  | choice
  | threshold
  | comparator
  | endless
  | text
  deriving DecidableEq, Repr

/-- The most nodes that a pool of copies may have. -/
def mostCopies : Nat := 1000

/-- How deep parentheses may nest. -/
def deepestNesting : Nat := 64

/-- The rest of a text as it is quoted in explanations. -/
def quoteRest (rest : Text) : Text :=
  if rest = [] then "end".toList else rest

/-- The explanation of a syntax fault. -/
def SyntaxFault.explanation : SyntaxFault → Text
  | empty => "Empty dice notation".toList
  | unexpected rest whole =>
      "Unexpected `".toList ++ quoteRest rest ++ "` in ".toList ++ whole
  | expected c rest whole =>
      "Expected `".toList ++ c :: "` at `".toList ++ quoteRest rest ++
        "` in ".toList ++ whole
  | outOfRange numeral =>
      "Integer out of range: `".toList ++ numeral ++ "`".toList
  | nestedTooDeep =>
      "Parentheses nested deeper than ".toList ++ numeral deepestNesting
  | countTooSmall count =>
      "Dice count must be at least 1: `".toList ++ count ++ "`".toList
  | countTooLarge count =>
      "Dice count out of range: `".toList ++ count ++ "`".toList
  | missingDie group whole =>
      "Expected dice at `".toList ++ group ++ "` in ".toList ++ whole
  | missingFace rest whole =>
      "Invalid custom dice face at `".toList ++ quoteRest rest ++
        "` in ".toList ++ whole
  | tooManyFaces =>
      "Too many custom dice faces, at most ".toList ++ numeral Die.mostFaces
  | tooFewSides group => "Invalid dice sides: `".toList ++ group ++ "`".toList
  | unknownSelection code =>
      "Unknown drop/keep algorithm: `".toList ++ code ++ "`".toList
  | missingOperand rest whole =>
      "Missing operand at `".toList ++ quoteRest rest ++ "` in ".toList ++ whole
  | tooManyOperators suffix =>
      "Too many arithmetic modifiers at `".toList ++ suffix ++ "`".toList

namespace Error

/-- The kind of a cause. -/
def kind : Error → ErrorKind
  | tooFewSides _ | noFaces | tooManyFaces => .die
  | missingItem | poolTooSmall _ | poolTooLarge _ | missingInner
  | missingOperandNode | emptySelection | emptyExplosion => .pool
  | unknownOperator _ => .operator
  | negativeOperand _ | divisionByZero => .operand
  | unknownSelection _ => .selection
  | tooManyChosen _ _ _ => .choice
  | negativeThreshold _ => .threshold
  | unknownComparator _ => .comparator
  | unprovenExplosion _ | endlessExplosion _ _ _ => .endless
  | badSyntax _ => .text

/-- The full explanation of a cause. -/
def explanation : Error → Text
  | tooFewSides sides =>
      "Dice must have at least 2 sides, got ".toList ++ numeral sides
  | noFaces => "Custom dice must have at least one face".toList
  | tooManyFaces =>
      "Custom dice cannot have more than ".toList ++ numeral Die.mostFaces ++
        " faces".toList
  | missingItem => "Pool must not contain null rollables".toList
  | poolTooSmall count =>
      "Pool must contain at least one rollable, got ".toList ++ numeral count
  | poolTooLarge count =>
      "Pool cannot hold more than ".toList ++ numeral mostCopies ++
        " rollables, got ".toList ++ numeral count
  | missingInner => "Modifier needs an inner rollable".toList
  | missingOperandNode => "Arithmetic modifier needs an inner rollable".toList
  | emptySelection => "Cannot drop or keep from an empty pool".toList
  | emptyExplosion => "Cannot explode an empty pool".toList
  | unknownOperator code => "Unknown arithmetic operator: ".toList ++ code
  | negativeOperand operand =>
      "Arithmetic operand must be non-negative, got ".toList ++ numeral operand
  | divisionByZero => "Division by zero".toList
  | unknownSelection code => "Unknown drop/keep algorithm: ".toList ++ code
  | negativeThreshold threshold =>
      "Drop/keep threshold must be non-negative, got ".toList ++
        numeral threshold
  | tooManyChosen threshold size pool =>
      "Threshold ".toList ++ numeral threshold ++ " exceeds the ".toList ++
        numeral size ++ " rollables of ".toList ++ pool
  | unknownComparator code => "Unknown explode comparator: ".toList ++ code
  | unprovenExplosion node =>
      "Cannot prove that exploding ".toList ++ node ++ " stops".toList
  | endlessExplosion node comparator threshold =>
      "Exploding ".toList ++ node ++ " on ".toList ++ comparator.symbol ::
        numeral threshold ++ " never stops".toList
  | badSyntax fault => fault.explanation

/-- The explanation of a cause, up to its first NUL byte. -/
def message (e : Error) : Text :=
  e.explanation.untilNul

end Error
end DiceNotation
