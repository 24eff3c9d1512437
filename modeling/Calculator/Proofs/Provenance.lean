import Calculator.Proofs.Bytes
import Calculator.Proofs.Inorder
import Calculator.Proofs.Slices
import Calculator.Proofs.ViablePrefix
import Mathlib.Algebra.Group.Int.Defs

/-!
# Where the nodes of a tree come from

The position in a node of a tree is a place of the text that was parsed: where the literal is
written, or the sign of the operator. Parentheses do not disturb this although they leave no node,
and neither does it matter that an operator has long been read when its node is made.

The errors of evaluating are about operators, and their positions are those of nodes. So they too
point at signs of the text: a division by zero at a sign of division, an overflow at one of the
other signs.

## Main definitions

* `RunOfDigits`: a run of digits at a place of a text that no digit stands next to.

## Main results

* `exists_runOfDigits`, `byteAt?_of_operation`: where one node comes from.
* `Expr.exists_operation_of_error`: which operators fail in which way.
* `nodes_stand_in_text`: the positions of trees and of the errors of evaluating.
-/

namespace Calculator

/-- At the place `p` of a text there is a run of digits that no digit stands next to. -/
def RunOfDigits (text : String) (p : Nat) (digits : List Char) : Prop :=
  ∃ before after, text.toList = before ++ (digits ++ after) ∧ byteLength before = p ∧
    digits ≠ [] ∧ (∀ d ∈ digits, d.isDigit = true) ∧
    (∀ d ∈ before.getLast?, d.isDigit = false) ∧ ∀ d ∈ after.head?, d.isDigit = false

/-! ### Words and what they are read as -/

theorem Reads.digits_of_number {word : List Char} {p : Nat} {value : Integer}
    (h : Reads word p (.ok (.number value))) :
    word ≠ [] ∧ (∀ d ∈ word, d.isDigit = true) ∧ value.toInt = Nat.ofDigitChars 10 word 0 := by
  cases h with
  | number _ hne hdigits hvalue => exact ⟨hne, hdigits, hvalue⟩
  | sign _ hsign => simp [signs] at hsign

theorem Reads.eq_symbol {word : List Char} {p : Nat} {op : Operator}
    (h : Reads word p (.ok op.token)) : word = [op.symbol] := by
  generalize ht : op.token = t at h
  cases h with
  | number => cases op <;> cases ht
  | sign _ hsign => cases op <;> simpa [← ht, signs, Operator.token, Operator.symbol] using hsign

/-! ### One node -/

variable {text : String} {strict : Bool} {e : Expr}

/-- **A literal is a run of digits** at its position, and its value is their value. -/
theorem exists_runOfDigits (h : parse text strict = .ok e) {value : Integer} {p : Nat}
    (hnode : .literal value p ∈ e.inorder) :
    ∃ digits, RunOfDigits text p digits ∧ value.toInt = Nat.ofDigitChars 10 digits 0 := by
  obtain ⟨before, word, after, htext, hposition, hreads, hmaximal⟩ :=
    exists_word_of_mem_wordsAt (lexeme_mem_wordsAt h hnode)
  obtain ⟨hne, hdigits, hvalue⟩ := hreads.digits_of_number
  obtain ⟨hbefore, hafter⟩ := hmaximal hdigits
  exact ⟨word, ⟨before, after, htext, hposition, hne, hdigits, hbefore, hafter⟩, hvalue⟩

/-- **An operation has the sign of its operator** at its position. -/
theorem byteAt?_of_operation (h : parse text strict = .ok e) {op : Operator} {p : Nat}
    (hnode : .operation op p ∈ e.inorder) : byteAt? text p = some op.symbol.toUInt8 := by
  obtain ⟨before, word, after, htext, hposition, hreads, -⟩ :=
    exists_word_of_mem_wordsAt (lexeme_mem_wordsAt h hnode)
  obtain rfl := hreads.eq_symbol
  have hbyte := byteAt?_of_toList htext op.utf8Size_symbol
  rwa [hposition] at hbyte

/-! ### Errors -/

namespace Operator

variable {op : Operator} {a b : Number} {p : Nat} {err : RuntimeError}

/-- A sum, a difference or a product fails by overflow only. -/
theorem eq_overflow_of_combine {f : Int → Int → Int} {g : Binary64 → Binary64 → Binary64}
    (h : combine f g a b p = .error err) : err = .overflow p := by
  by_cases hintegers : ∃ i j, a = .integer i ∧ b = .integer j
  · obtain ⟨i, j, rfl, rfl⟩ := hintegers
    rw [combine] at h
    split at h
    · cases h
    · exact (Except.error.inj h).symm
  · rw [combine_reals hintegers] at h
    cases h

/-- **What an operator can fail with**: division by zero if it is division, otherwise overflow. -/
theorem apply_eq_error (h : op.apply a b p = .error err) :
    (err = .divisionByZero p ∧ op = .div) ∨ (err = .overflow p ∧ op ≠ .div) := by
  cases op with
  | add | sub | mul => exact .inr ⟨eq_overflow_of_combine h, nofun⟩
  | div =>
    rw [apply, divide] at h
    split at h
    · exact .inl ⟨(Except.error.inj h).symm, rfl⟩
    · cases h

end Operator

/-- **The error of a tree is that of one of its operations.** -/
theorem Expr.exists_operation_of_error {err : RuntimeError}
    (h : e.evaluate.result = .error err) :
    ∃ op, .operation op err.position ∈ e.inorder ∧
      ((err = .divisionByZero err.position ∧ op = .div) ∨
        (err = .overflow err.position ∧ op ≠ .div)) := by
  obtain ⟨s, ⟨before, after, hsubtrees, -, -⟩, hs⟩ := Expr.evaluate_eq_error_iff.mp h
  cases s with
  | literal value p => cases hs
  | binary op left right p =>
    obtain ⟨a, b, -, -, happly⟩ := Expr.failure?_binary_eq_some_iff.mp hs
    have hmem : .binary op left right p ∈ e.subtrees := by simp [hsubtrees]
    have hnode : .operation op p ∈ e.inorder := Expr.operation_mem_inorder hmem
    rcases Operator.apply_eq_error happly with ⟨rfl, hop⟩ | ⟨rfl, hop⟩
    · exact ⟨op, hnode, .inl ⟨rfl, hop⟩⟩
    · exact ⟨op, hnode, .inr ⟨rfl, hop⟩⟩

/-- Only a text that has a tree fails to have a value for reasons of arithmetic. -/
theorem exists_tree_of_runtime_error {err : RuntimeError}
    (h : evaluate text strict = .error (.runtime err)) :
    ∃ e, parse text strict = .ok e ∧ e.evaluate.result = .error err := by
  rw [evaluate_eq_bind] at h
  cases hparse : parse text strict with
  | error d =>
    rw [hparse] at h
    obtain rfl := Except.error.inj h
    obtain ⟨-, -, -, -, ⟨d, -, hd⟩ | ⟨l, c, -, hc, -⟩⟩ := exists_reading_of_parse_error hparse
    · cases hd
    · cases hc
  | ok e =>
    refine ⟨e, rfl, ?_⟩
    rw [hparse] at h
    cases hvalue : e.evaluate.result with
    | ok n => rw [Except.bind, hvalue] at h; cases h
    | error d => rw [Except.bind, hvalue] at h; cases h; rfl

/-- **The positions of trees and of the errors of evaluating are places of the text.** Each literal
of a tree is a run of digits that no digit stands next to, and it has their value, which is not
negative; each operation has the sign of its operator; and from left to right the positions
increase. A division by zero is found at a sign of division, and an overflow at another sign. -/
theorem nodes_stand_in_text (text : String) (strict : Bool) :
    (∀ e, parse text strict = .ok e →
      (∀ (value : Integer) (p : Nat), .literal value p ∈ e.inorder →
        0 ≤ value.toInt ∧ value.toInt ≤ 2 ^ 63 - 1 ∧
        ∃ digits, RunOfDigits text p digits ∧ value.toInt = Nat.ofDigitChars 10 digits 0) ∧
      (∀ (op : Operator) (p : Nat), .operation op p ∈ e.inorder →
        byteAt? text p = some op.symbol.toUInt8) ∧
      (e.inorder.map Expr.Node.position).Pairwise (· < ·)) ∧
    (∀ p, evaluate text strict = .error (.runtime (.divisionByZero p)) →
      byteAt? text p = some '/'.toUInt8) ∧
    ∀ p, evaluate text strict = .error (.runtime (.overflow p)) →
      ∃ c ∈ ['+', '-', '*'], byteAt? text p = some c.toUInt8 := by
  refine ⟨fun e h => ⟨fun value p hnode => ?_, fun op p hnode => byteAt?_of_operation h hnode,
    pairwise_position_inorder h⟩, fun p h => ?_, fun p h => ?_⟩
  · obtain ⟨digits, hrun, hvalue⟩ := exists_runOfDigits h hnode
    have hlt := value.lt
    exact ⟨by omega, by omega, digits, hrun, hvalue⟩
  · obtain ⟨e, he, herror⟩ := exists_tree_of_runtime_error h
    obtain ⟨op, hnode, ⟨-, rfl⟩ | ⟨herr, -⟩⟩ := Expr.exists_operation_of_error herror
    · exact byteAt?_of_operation he hnode
    · cases herr
  · obtain ⟨e, he, herror⟩ := exists_tree_of_runtime_error h
    obtain ⟨op, hnode, ⟨herr, -⟩ | ⟨-, hop⟩⟩ := Expr.exists_operation_of_error herror
    · cases herr
    · refine ⟨op.symbol, ?_, byteAt?_of_operation he hnode⟩
      cases op with
      | add | sub | mul => decide
      | div => exact absurd rfl hop

/-- Neither blanks nor parentheses leave anything in the tree. -/
example : ((parse "(1 + 20)*3" true).toOption.map fun e => e.inorder.map Expr.Node.position) =
    some [1, 3, 5, 8, 9] := by decide +kernel

end Calculator
