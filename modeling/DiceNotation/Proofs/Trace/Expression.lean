import DiceNotation.Proofs.Operator
import DiceNotation.Reading

/-!
# Traces as integer expressions

A trace is read like any integer expression: powers bind tighter than products
and quotients, and these bind tighter than sums and differences.  Operators of
the same rank are applied from left to right, quotients are truncated toward
zero, and a literal may have a minus sign in front.

The reader below goes through the text once.  At every level of parentheses it
remembers, for each rank, what the last operator of that rank still has to do
with its right operand.
-/

namespace DiceNotation

namespace Operator

/-- The place of the operator among the operators, those that bind tightest
first. -/
def rank : Operator → Nat
  | power => 1
  | multiply | divide => 2
  | add | subtract => 3

/-- The exact result of the operator.  There is none for a division by zero or
a negative power. -/
def exact (op : Operator) (m n : Int) : Option Int :=
  match op with
  | add => some (m + n)
  | subtract => some (m - n)
  | multiply => some (m * n)
  | divide => if n = 0 then none else some (m.tdiv n)
  | power => if n < 0 then none else some (m ^ n.toNat)

theorem rank_pos (op : Operator) : 0 < op.rank := by
  cases op <;> decide

end Operator

namespace Trace

/-- The loosest rank. -/
def loosest : Nat := 3

/-- What the last operator of each rank still has to do with its right
operand. -/
abbrev Pending := Nat → Int → Option Int

namespace Pending

/-- Nothing is left to do. -/
def nothing : Pending := fun _ => some

/-- The value that an operand has once all operators up to a rank are
applied. -/
def reduce (pending : Pending) : Nat → Int → Option Int
  | 0, n => some n
  | rank + 1, n => (reduce pending rank n).bind (pending (rank + 1))

/-- What is left to do after an operator, once its left operand is known. -/
def push (pending : Pending) (op : Operator) (left : Int) : Pending :=
  fun rank => if rank < op.rank then some
    else if rank = op.rank then op.exact left else pending rank

end Pending

/-- What the reader is about to read, or has just read. -/
inductive Focus where
  | operand
  | minus
  | digits (sign : Int) (n : Nat)
  | complete (n : Int)

/-- The value of the operand that has just been read. -/
def Focus.value? : Focus → Option Int
  | operand => none
  | minus => none
  | digits sign n => some (sign * n)
  | complete n => some n

/-- The reader in the middle of a text: its focus, what is left to do in the
innermost parentheses, and what is left to do around them. -/
structure Reader where
  focus : Focus
  pending : Pending
  outer : List Pending

/-- The value of a digit. -/
def digit (c : Char) : Nat :=
  c.toNat - '0'.toNat

/-- Reads what follows an operand: a space, a closing parenthesis or an
operator. -/
def follow (pending : Pending) (outer : List Pending) (n : Int) (c : Char) :
    Option Reader :=
  if c = ' ' then
    some ⟨.complete n, pending, outer⟩
  else if c = ')' then
    match outer with
    | [] => none
    | around :: outer =>
        (pending.reduce loosest n).map fun n => ⟨.complete n, around, outer⟩
  else
    (Operator.ofSymbol? c).bind fun op =>
      (pending.reduce op.rank n).map fun left =>
        ⟨.operand, pending.push op left, outer⟩

/-- Reads a character. -/
def step (reader : Reader) (c : Char) : Option Reader :=
  match reader.focus with
  | .operand =>
      if c = ' ' then
        some reader
      else if c = '-' then
        some { reader with focus := .minus }
      else if c = '(' then
        some ⟨.operand, .nothing, reader.pending :: reader.outer⟩
      else if c.isDigit then
        some { reader with focus := .digits 1 (digit c) }
      else
        none
  | .minus =>
      if c.isDigit then some { reader with focus := .digits (-1) (digit c) }
      else none
  | .digits sign n =>
      if c.isDigit then
        some { reader with focus := .digits sign (10 * n + digit c) }
      else
        follow reader.pending reader.outer (sign * n) c
  | .complete n => follow reader.pending reader.outer n c

/-- The value of a text that has been read to its end. -/
def Reader.value? (reader : Reader) : Option Int :=
  match reader.outer with
  | [] => reader.focus.value?.bind (reader.pending.reduce loosest)
  | _ :: _ => none

/-- The value of a text as an integer expression, if it is one. -/
def value? (s : Text) : Option Int :=
  (s.foldlM step ⟨.operand, .nothing, []⟩).bind Reader.value?

/-! ## The grammar of traces -/

/-- The text of an operation, with single spaces around its operator. -/
def operation (left : Text) (op : Operator) (right : Text) : Text :=
  left ++ [' ', op.symbol, ' '] ++ right

/-- The text is an expression in which no operator is looser than the rank
outside of parentheses, and this is its value. -/
inductive Means : Nat → Text → Int → Prop where
  | literal (n : Int) : Means 0 (numeral n) n
  | enclosed {s : Text} {n : Int} :
      Means loosest s n → Means 0 (Text.parenthesize s) n
  | looser {rank : Nat} {s : Text} {n : Int} :
      Means rank s n → Means (rank + 1) s n
  | operation {op : Operator} {s t : Text} {m n k : Int} :
      Means op.rank s m → Means (op.rank - 1) t n → op.exact m n = some k →
      Means op.rank (operation s op t) k

namespace Pending

theorem push_of_lt
    {pending : Pending} {op : Operator} {left : Int} {rank : Nat}
    (h : rank < op.rank) :
    pending.push op left rank = some :=
  if_pos h

theorem push_self (pending : Pending) (op : Operator) (left : Int) :
    pending.push op left op.rank = op.exact left := by
  rw [push, if_neg (lt_irrefl _), if_pos rfl]

theorem push_of_gt
    {pending : Pending} {op : Operator} {left : Int} {rank : Nat}
    (h : op.rank < rank) :
    pending.push op left rank = pending rank := by
  rw [push, if_neg (Nat.not_lt.mpr h.le), if_neg h.ne']

end Pending

/-! ## Reading what the grammar describes -/

theorem foldlM_digits
    {digits : Text}
    (h : ∀ c ∈ digits, c.isDigit = true)
    (sign : Int) (n : Nat) (pending : Pending) (outer : List Pending) :
    digits.foldlM step ⟨.digits sign n, pending, outer⟩ =
      some ⟨.digits sign (Nat.ofDigitChars 10 digits n), pending, outer⟩ := by
  induction digits generalizing n with
  | nil => rfl
  | cons c rest ih =>
      rw [List.forall_mem_cons] at h
      have hstep : step ⟨.digits sign n, pending, outer⟩ c =
          some ⟨.digits sign (10 * n + digit c), pending, outer⟩ := by
        simp only [step, if_pos h.1]
      rw [List.foldlM_cons, hstep]
      exact ih h.2 _

theorem ne_of_isDigit
    {c d : Char}
    (hc : c.isDigit = true)
    (hd : d.isDigit = false) :
    c ≠ d := by
  rintro rfl
  rw [hc] at hd
  cases hd

/-- Reading a literal, after its minus sign if it has one, ends at its last
digit. -/
theorem foldlM_natural
    (k : Nat) {focus : Focus} {sign : Int}
    (hfocus : focus = .operand ∧ sign = 1 ∨ focus = .minus ∧ sign = -1)
    (pending : Pending) (outer : List Pending) :
    (Nat.toDigits 10 k).foldlM step ⟨focus, pending, outer⟩ =
      some ⟨.digits sign k, pending, outer⟩ := by
  have hdigits : ∀ c ∈ Nat.toDigits 10 k, c.isDigit = true := fun c hc =>
    Nat.isDigit_of_mem_toDigits (by decide) (by decide) hc
  have hvalue : Nat.ofDigitChars 10 (Nat.toDigits 10 k) 0 = k := by simp
  cases htext : Nat.toDigits 10 k with
  | nil => simp at htext
  | cons c rest =>
      rw [htext, List.forall_mem_cons] at hdigits
      rw [htext] at hvalue
      have hspace := ne_of_isDigit (d := ' ') hdigits.1 rfl
      have hminus := ne_of_isDigit (d := '-') hdigits.1 rfl
      have hopen := ne_of_isDigit (d := '(') hdigits.1 rfl
      have hstep : step ⟨focus, pending, outer⟩ c =
          some ⟨.digits sign (digit c), pending, outer⟩ := by
        rcases hfocus with ⟨rfl, rfl⟩ | ⟨rfl, rfl⟩
        · simp only [step, if_neg hspace, if_neg hminus, if_neg hopen,
            if_pos hdigits.1]
        · simp only [step, if_pos hdigits.1]
      have hcons : Nat.ofDigitChars 10 rest (digit c) = k := by
        rw [← hvalue, Nat.ofDigitChars_cons, digit, Nat.mul_zero, Nat.zero_add]
      rw [List.foldlM_cons, hstep, ← hcons]
      exact foldlM_digits hdigits.2 sign (digit c) pending outer

theorem foldlM_numeral (n : Int) (pending : Pending) (outer : List Pending) :
    ∃ focus, (numeral n).foldlM step ⟨.operand, pending, outer⟩ =
        some ⟨focus, pending, outer⟩ ∧ focus.value? = some n := by
  cases n with
  | ofNat k =>
      refine ⟨.digits 1 k,
        foldlM_natural k (Or.inl ⟨rfl, rfl⟩) pending outer, ?_⟩
      rw [Focus.value?, one_mul]
      rfl
  | negSucc k =>
      refine ⟨.digits (-1) (k + 1 : Nat), ?_, ?_⟩
      · rw [numeral, List.foldlM_cons]
        exact foldlM_natural (k + 1) (Or.inr ⟨rfl, rfl⟩) pending outer
      · rw [Focus.value?, Int.negSucc_eq]
        congr 1
        push_cast
        ring

/-- Behind an operand, a character that is no digit is read the same way
whatever the operand looked like. -/
theorem step_of_value?
    {focus : Focus} {n : Int}
    (hfocus : focus.value? = some n)
    {c : Char}
    (hc : c.isDigit = false)
    (pending : Pending) (outer : List Pending) :
    step ⟨focus, pending, outer⟩ c = follow pending outer n c := by
  cases focus with
  | operand => cases hfocus
  | minus => cases hfocus
  | digits sign k =>
      cases hfocus
      simp only [step, hc, Bool.false_eq_true, if_false]
  | complete n =>
      cases hfocus
      rfl

theorem step_space
    {focus : Focus} {n : Int}
    (hfocus : focus.value? = some n)
    (pending : Pending) (outer : List Pending) :
    step ⟨focus, pending, outer⟩ ' ' = some ⟨.complete n, pending, outer⟩ :=
  step_of_value? hfocus rfl pending outer

theorem step_close
    {focus : Focus} {n k : Int} {pending : Pending}
    (hfocus : focus.value? = some n)
    (hreduce : pending.reduce loosest n = some k)
    (around : Pending) (outer : List Pending) :
    step ⟨focus, pending, around :: outer⟩ ')' =
      some ⟨.complete k, around, outer⟩ := by
  have hfollow : follow pending (around :: outer) n ')' =
      (pending.reduce loosest n).map fun n => ⟨.complete n, around, outer⟩ :=
    rfl
  rw [step_of_value? hfocus rfl, hfollow, hreduce]
  rfl

theorem step_symbol
    {op : Operator} {n left : Int} {pending : Pending}
    (hreduce : pending.reduce op.rank n = some left)
    (outer : List Pending) :
    step ⟨.complete n, pending, outer⟩ op.symbol =
      some ⟨.operand, pending.push op left, outer⟩ := by
  have hsymbol : op.symbol.isDigit = false := by
    cases op <;> rfl
  have hfollow : follow pending outer n op.symbol =
      (pending.reduce op.rank n).map fun left =>
        ⟨.operand, pending.push op left, outer⟩ := by
    cases op <;> rfl
  rw [step_of_value? rfl hsymbol, hfollow, hreduce]
  rfl

/-- Wherever an operand is expected and nothing tighter is pending, an
expression is read up to an operand that reduces to the value of the expression.
What is pending further out stays. -/
theorem exists_foldlM_of_means
    {rank : Nat} {s : Text} {n : Int}
    (h : Means rank s n)
    (pending : Pending)
    (hpending : ∀ i ≤ rank, pending i = some)
    (outer : List Pending) :
    ∃ focus last after, s.foldlM step ⟨.operand, pending, outer⟩ =
        some ⟨focus, after, outer⟩ ∧ focus.value? = some last ∧
      after.reduce rank last = some n ∧ ∀ i,
        rank < i → after i = pending i := by
  induction h generalizing pending outer with
  | literal n =>
      obtain ⟨focus, hread, hvalue⟩ := foldlM_numeral n pending outer
      exact ⟨focus, n, pending, hread, hvalue, rfl, fun _ _ => rfl⟩
  | @enclosed s n _ ih =>
      obtain ⟨focus, last, after, hread, hvalue, hreduce, -⟩ :=
        ih .nothing (fun _ _ => rfl) (pending :: outer)
      refine ⟨.complete n, n, pending, ?_, rfl, rfl, fun _ _ => rfl⟩
      have hopen : step ⟨.operand, pending, outer⟩ '(' =
          some ⟨.operand, .nothing, pending :: outer⟩ := rfl
      rw [Text.parenthesize, List.cons_append, List.foldlM_cons, hopen]
      simp only [Option.bind_eq_bind, Option.bind_some]
      rw [List.foldlM_append, hread]
      simp only [Option.bind_eq_bind, Option.bind_some]
      rw [List.foldlM_cons, step_close hvalue hreduce]
      rfl
  | @looser rank s n _ ih =>
      obtain ⟨focus, last, after, hread, hvalue, hreduce, hafter⟩ :=
        ih pending (fun i hi => hpending i (Nat.le_succ_of_le hi)) outer
      refine ⟨focus, last, after, hread, hvalue, ?_,
        fun i hi => hafter i (by omega)⟩
      have hnone : after (rank + 1) = some := by
        rw [hafter (rank + 1) (Nat.lt_succ_self rank)]
        exact hpending (rank + 1) le_rfl
      rw [Pending.reduce, hreduce, hnone]
      rfl
  | @operation op s t m n k _ _ hexact ihs iht =>
      obtain ⟨focus, last, after, hread, hvalue, hreduce, hafter⟩ :=
        ihs pending hpending outer
      -- Once the operator is read, its left operand is pending at its rank.
      have hpush : ∀ i ≤ op.rank - 1, after.push op m i = some := by
        intro i hi
        have hpos := op.rank_pos
        exact Pending.push_of_lt (by omega)
      obtain ⟨focus', last', after', hread', hvalue', hreduce', hafter'⟩ :=
        iht (after.push op m) hpush outer
      refine ⟨focus', last', after', ?_, hvalue', ?_, ?_⟩
      · have hsymbol : [' ', op.symbol, ' '].foldlM step ⟨focus, after, outer⟩ =
            some ⟨.operand, after.push op m, outer⟩ := by
          rw [List.foldlM_cons, step_space hvalue]
          simp only [Option.bind_eq_bind, Option.bind_some]
          rw [List.foldlM_cons, step_symbol hreduce]
          rfl
        rw [operation, List.foldlM_append, List.foldlM_append, hread]
        simp only [Option.bind_eq_bind, Option.bind_some]
        rw [hsymbol]
        exact hread'
      · have hrank : op.rank = op.rank - 1 + 1 :=
          (Nat.sub_add_cancel op.rank_pos).symm
        have hpower : after' op.rank = op.exact m := by
          rw [hafter' op.rank (by omega), Pending.push_self]
        rw [hrank, Pending.reduce, hreduce', ← hrank, hpower]
        exact hexact
      · intro i hi
        rw [hafter' i (by omega), Pending.push_of_gt hi]
        exact hafter i hi

/-- An expression of the grammar is read with its value, so it has only one. -/
theorem value?_of_means
    {s : Text} {n : Int}
    (h : Means loosest s n) :
    value? s = some n := by
  obtain ⟨focus, last, after, hread, hvalue, hreduce, -⟩ :=
    exists_foldlM_of_means h .nothing (fun _ _ => rfl) []
  rw [value?, hread, Option.bind_some, Reader.value?, hvalue, Option.bind_some]
  exact hreduce

example : value? "(2 - 3) * 4 + (-5) ^ 2 + 7 / 2".toList = some 24 := by decide

/-! ## Parts of traces -/

theorem Means.mono
    {rank rank' : Nat} {s : Text} {n : Int}
    (h : Means rank s n)
    (hle : rank ≤ rank') :
    Means rank' s n := by
  induction hle with
  | refl => exact h
  | step _ ih => exact ih.looser

/-- An expression without spaces is a literal or stands in parentheses. -/
theorem Means.tightest
    {rank : Nat} {s : Text} {n : Int}
    (h : Means rank s n)
    (hspace : ' ' ∉ s) :
    Means 0 s n := by
  induction h with
  | literal n => exact .literal n
  | enclosed h _ => exact .enclosed h
  | looser _ ih => exact ih hspace
  | operation => simp [Trace.operation] at hspace

theorem means_asOperand
    {s : Text} {n : Int}
    (h : Means loosest s n) :
    Means 0 (asOperand s) n := by
  unfold asOperand
  split
  · exact .enclosed h
  · rename_i hplain
    rw [not_or] at hplain
    exact h.tightest hplain.1

theorem means_asSummand
    {s : Text} {n : Int}
    (h : Means loosest s n) :
    Means loosest (asSummand s) n := by
  unfold asSummand
  split
  · exact (Means.enclosed h).mono (Nat.zero_le _)
  · exact h

/-- An expression keeps its value behind a plus sign: even if it is a sum or a
difference itself, its operators can just as well be applied from left to
right. -/
theorem means_add
    {s t : Text} {m n : Int}
    (hs : Means loosest s m)
    (ht : Means loosest t n) :
    Means loosest (operation s .add t) (m + n) := by
  generalize hrank : loosest = rank at ht
  induction ht with
  | literal n => cases hrank
  | enclosed _ _ => cases hrank
  | looser ht _ =>
      cases hrank
      have hleft : Means Operator.add.rank s m := hs
      exact .operation hleft ht rfl
  | @operation op t u n n' k _ hu hexact iht _ =>
      have hleft := iht hrank
      rw [hrank] at hs
      have htext : operation s .add (operation t op u) =
          operation (operation s .add t) op u := by
        simp only [operation, List.append_assoc]
      have hvalue : op.exact (m + n) n' = some (m + k) := by
        cases op with
        | add =>
            cases hexact
            exact congrArg some (Int.add_assoc m n n')
        | subtract =>
            cases hexact
            exact congrArg some (Int.add_sub_assoc m n n')
        | multiply => cases hrank
        | divide => cases hrank
        | power => cases hrank
      rw [htext]
      exact .operation hleft hu hvalue

/-- The traces of a sum's parts, joined, mean the sum. -/
theorem means_join
    {traces : List Text} {values : List Int}
    (h : List.Forall₂ (Means loosest) traces values) :
    Means loosest (join traces) values.sum := by
  induction h with
  | nil => exact (Means.literal 0).mono (Nat.zero_le _)
  | @cons trace value traces values htrace htraces ih =>
      cases htraces with
      | nil =>
          rw [List.sum_singleton]
          simpa only [join, List.intercalate, List.intersperse,
            List.flatten_singleton] using htrace
      | @cons trace' _ traces' _ _ _ =>
          have htext : join (trace :: trace' :: traces') =
              operation trace .add (join (trace' :: traces')) := by
            simp [join, List.intercalate, operation, Operator.symbol]
          rw [htext, List.sum_cons]
          exact means_add htrace ih

end Trace
end DiceNotation
