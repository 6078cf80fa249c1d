import DiceNotation.Proofs.Grammar.Soundness

/-!
# Reading with every check

The readers know from the words that they find which die, which operator,
which selection and which comparator is meant.  The checked readers below trust
nothing that they have seen: they pass the sides of every die to the check of
its constructor, and they look up every code once more where an unknown code is
refused.  They do the same as the readers, since a word that was found passes
its check.
-/

namespace DiceNotation

/-- The die again, unless the constructor of such dice refuses it. -/
def Die.checked : Die → Except Error Die
  | .sided sides => Die.ofSides sides
  | .custom faces => Die.ofFaces faces
  | .fudge => .ok .fudge

namespace Parse

open Building Grammar

/-! ## Words pass their checks -/

theorem checked_of_sides
    {s : Text} {d : Die}
    (h : Sides s d) :
    d.checked = .ok d := by
  cases h with
  | @number s n hs hmany =>
      have hfew : ¬(n : Int) < 2 := by omega
      rw [Die.checked, Die.ofSides, if_neg hfew, Int.toNat_natCast]
  | fudge => rfl
  | hundred => rfl
  | @listed s faces hs hlength =>
      have hne : faces ≠ [] := by
        intro hnil
        rw [hnil] at hs
        cases hs
      have hfew : ¬Die.mostFaces < faces.length := Nat.not_lt.mpr hlength
      rw [Die.checked, Die.ofFaces, if_neg hne, if_neg hfew]

theorem ofCode_of_selection
    {s rest : Text} {selection? : Option Selection}
    (h : selection s = .ok (selection?, rest)) :
    ∀ found ∈ selection?, Selection.ofCode (s.take 2) = .ok found := by
  intro found hfound
  rcases exists_code_of_selection h with ⟨rfl, -⟩ | ⟨_, rfl, rfl⟩
  · cases hfound
  · cases hfound
    cases found <;> rfl

theorem ofCode_of_comparator
    {s rest : Text} {comparator? : Option Comparator}
    (h : comparator s = (comparator?, rest)) :
    ∀ found ∈ comparator?, Comparator.ofCode (s.take 1) = .ok found := by
  intro found hfound
  rcases exists_symbol_of_comparator h with ⟨rfl, -⟩ | ⟨_, rfl, rfl⟩
  · cases hfound
  · cases hfound
    cases found <;> rfl

theorem ofCode_of_suffix
    {whole s rest : Text} {found : Option (Operator × Int)}
    (h : suffix whole s = .ok (found, rest)) :
    ∀ p ∈ found, Operator.ofCode (s.take 1) = .ok p.1 := by
  intro p hp
  rcases exists_number_of_suffix h with ⟨rfl, -⟩ | ⟨op, _, _, rfl, rfl, -⟩
  · cases hp
  · cases hp
    cases op <;> rfl

/-! ## The checked readers -/

namespace Checked

/-- Reads a group of dice, and checks the die. -/
def dice (whole : Text) : Reader Node := fun s => do
  let ((n, d), rest) ← scanned (countedDie whole s)
  let node ← Build.die (← ofExcept d.checked)
  if n = 1 then
    return (node, rest)
  else
    return (← Build.repeated node n, rest)

/-- Reads a group, and checks the dice in it. -/
def group (whole : Text) (inner : Option (Reader Node)) : Reader Node
  | '(' :: rest =>
      match inner with
      | none => refuse .nestedTooDeep
      | some expression => do
          let (node, rest) ← expression rest
          let (_, rest) ← scanned (expect ')' whole rest)
          return (node, rest)
  | s => dice whole s

/-- Reads a selection behind a node, if there is one, and looks its code up. -/
def selected (tracer : Tracer) (node : Node) : Reader Node := fun s => do
  match ← scanned (selection s) with
  | (none, rest) => return (node, rest)
  | (some _, rest) =>
      let selection ← ofExcept (Selection.ofCode (s.take 2))
      let (threshold, rest) ← scanned (integer false rest)
      return (← Build.dropKeep (some node) selection
        (threshold.getD 1) tracer, rest)

/-- Reads an explosion behind a node, if there is one, and looks the code of its
comparator up. -/
def exploded (tracer : Tracer) (node : Node) : Reader Node
  | '!' :: s => do
      let (found, rest) := Parse.comparator s
      let comparator ← ofExcept
        (found.elim (.ok .equal) fun _ => Comparator.ofCode (s.take 1))
      let (threshold, rest) ← scanned (integer found.isSome rest)
      return (← Build.explode (some node) comparator threshold tracer, rest)
  | s => return (node, s)

/-- Reads the arithmetic suffixes behind a node, and looks their codes up. -/
def suffixed (tracer : Tracer) (whole : Text) : Nat → Node → Reader Node
  | allowed, node, s => do
      match ← scanned (suffix whole s) with
      | (none, rest) => return (node, rest)
      | (some (_, n), rest) =>
          let op ← ofExcept (Operator.ofCode (s.take 1))
          match allowed with
          | 0 => refuse (.tooManyOperators s)
          | allowed + 1 =>
              let node ← Build.arithmetic (some node) op n tracer
              suffixed tracer whole allowed node rest

/-- Reads a term with every check. -/
def term (tracer : Tracer) (whole : Text) (group : Reader Node) :
    Reader Node := fun s => do
  let (node, rest) ← group s
  let (node, rest) ← selected tracer node rest
  let (node, rest) ← exploded tracer node rest
  suffixed tracer whole mostSuffixes node rest

/-- Reads an expression with every check. -/
def expression (tracer : Tracer) (whole : Text) : Nat → Reader Node
  | 0 => sum (term tracer whole (group whole none))
  | depth + 1 =>
      sum (term tracer whole
        (group whole (some (expression tracer whole depth))))

/-- Reads a normalized text to its end with every check. -/
def wholeText (tracer : Tracer) (whole : Text) : Building Node := do
  if whole = [] then
    refuse .empty
  else
    let (node, rest) ← expression tracer whole deepestNesting whole
    if rest = [] then
      return node
    else
      refuse (.unexpected rest whole)

/-! ## No check is failed -/

variable (tracer : Tracer) (whole : Text)

theorem dice_eq : dice whole = Parse.dice whole := by
  funext s
  rw [dice, Parse.dice]
  cases hcounted : countedDie whole s with
  | error fault => rfl
  | ok found =>
      obtain ⟨⟨n, d⟩, rest⟩ := found
      obtain ⟨-, w, -, -, hsides⟩ := exists_sides_of_countedDie hcounted
      rw [scanned_ok, pure_bind, pure_bind]
      dsimp only
      rw [checked_of_sides hsides]
      rfl

theorem group_eq (inner : Option (Reader Node)) :
    group whole inner = Parse.group whole inner := by
  funext s
  by_cases hs : ∃ more, s = '(' :: more
  · obtain ⟨more, rfl⟩ := hs
    rfl
  · have hdice : ∀ more, s ≠ '(' :: more := fun more h => hs ⟨more, h⟩
    rw [group_eq_dice whole hdice, ← dice_eq]
    unfold group
    split
    · exact absurd rfl (hdice _)
    · rfl

theorem selected_eq (node : Node) :
    selected tracer node = Parse.selected tracer node := by
  funext s
  rw [selected, Parse.selected]
  cases hselection : selection s with
  | error fault => rfl
  | ok p =>
      obtain ⟨found, rest⟩ := p
      rw [scanned_ok, pure_bind, pure_bind]
      cases found with
      | none => rfl
      | some selection =>
          dsimp only
          rw [ofCode_of_selection hselection selection rfl]
          rfl

theorem exploded_eq (node : Node) :
    exploded tracer node = Parse.exploded tracer node := by
  funext s
  by_cases hs : ∃ more, s = '!' :: more
  · obtain ⟨more, rfl⟩ := hs
    rw [exploded, Parse.exploded]
    rcases hcomparator : comparator more with ⟨found, rest⟩
    cases found with
    | none => rfl
    | some comparator =>
        dsimp only [Option.elim]
        rw [ofCode_of_comparator hcomparator comparator rfl]
        rfl
  · have hmark : ∀ more, s ≠ '!' :: more := fun more h => hs ⟨more, h⟩
    rw [exploded_none hmark]
    unfold exploded
    split
    · exact absurd rfl (hmark _)
    · rfl

theorem suffixed_eq (allowed : Nat) (node : Node) :
    suffixed tracer whole allowed node =
      Parse.suffixed tracer whole allowed node := by
  funext s
  induction allowed generalizing node s with
  | zero =>
      rw [suffixed, Parse.suffixed]
      cases hsuffix : suffix whole s with
      | error fault => rfl
      | ok p =>
          obtain ⟨found, rest⟩ := p
          rw [scanned_ok, pure_bind, pure_bind]
          cases found with
          | none => rfl
          | some found =>
              dsimp only
              rw [ofCode_of_suffix hsuffix found rfl]
              rfl
  | succ allowed ih =>
      rw [suffixed, Parse.suffixed]
      cases hsuffix : suffix whole s with
      | error fault => rfl
      | ok p =>
          obtain ⟨found, rest⟩ := p
          rw [scanned_ok, pure_bind, pure_bind]
          cases found with
          | none => rfl
          | some found =>
              dsimp only
              rw [ofCode_of_suffix hsuffix found rfl]
              simp only [ih]
              rfl

theorem term_eq (group : Reader Node) :
    term tracer whole group = Parse.term tracer whole group := by
  funext s
  rw [term, Parse.term]
  simp only [selected_eq, exploded_eq, suffixed_eq]

theorem expression_eq (depth : Nat) :
    expression tracer whole depth = Parse.expression tracer whole depth := by
  induction depth with
  | zero => rw [expression, Parse.expression, term_eq, group_eq]
  | succ depth ih => rw [expression, Parse.expression, term_eq, group_eq, ih]

theorem wholeText_eq :
    wholeText tracer whole = Parse.wholeText tracer whole := by
  rw [wholeText, Parse.wholeText, expression_eq]

end Checked
end Parse

/-- Reads a dice expression with every check that constructors and codes
have. -/
def parseChecked (tracer : Tracer) (text : Text) : Building Node :=
  Parse.Checked.wholeText tracer text.normalize

/-- Reading with every check is reading. -/
theorem parseChecked_eq (tracer : Tracer) (text : Text) :
    parseChecked tracer text = parse tracer text :=
  Parse.Checked.wholeText_eq tracer text.normalize

end DiceNotation
