import Calculator.Proofs.Results

/-!
# Moving positions

The same text read at another place gives the same lexemes, trees and errors at other positions.
`mapPosition` is that change on each kind of data: it replaces the positions, all in the same way,
and leaves everything else alone.

Two trees are said to agree along a map of positions when one has the value of the other, or its
error, moved. This says less than that one tree is the other one moved: the two may differ wherever
neither can fail. That is the point, since it is what an expression in parentheses contributes to
its surroundings.

## Main definitions

* `Lexeme.mapPosition`, `Error.mapPosition`, `Expr.mapPosition`.
* `Expr.Congruence`: a relation between trees that putting trees together preserves.
* `Expr.Agrees`: two trees have the same value, or the same error at corresponding positions.

## Main results

* `Expr.agrees_congruence`: agreement is a congruence.
-/

namespace Calculator

variable {f : Nat → Nat}

/-- Moves a lexeme. -/
def Lexeme.mapPosition (f : Nat → Nat) (l : Lexeme) : Lexeme := ⟨l.token, f l.position⟩

/-- Moves an error of spelling. -/
def LexError.mapPosition (f : Nat → Nat) : LexError → LexError
  | .invalidCharacter c p => .invalidCharacter c (f p)
  | .integerTooLarge literal p => .integerTooLarge literal (f p)

/-- Moves an error in the order of the tokens. -/
def SyntaxError.mapPosition (f : Nat → Nat) : SyntaxError → SyntaxError
  | .unexpectedToken expected found p => .unexpectedToken expected found (f p)
  | .expectedFactor found p => .expectedFactor found (f p)
  | .trailingInput found p => .trailingInput found (f p)

/-- Moves an error in the arithmetic. -/
def RuntimeError.mapPosition (f : Nat → Nat) : RuntimeError → RuntimeError
  | .divisionByZero p => .divisionByZero (f p)
  | .overflow p => .overflow (f p)

/-- Moves an error. -/
def Error.mapPosition (f : Nat → Nat) : Error → Error
  | .lexical e => .lexical (e.mapPosition f)
  | .syntactic e => .syntactic (e.mapPosition f)
  | .runtime e => .runtime (e.mapPosition f)

/-- Moves every node of a tree. A map to one position forgets them. -/
def Expr.mapPosition (f : Nat → Nat) : Expr → Expr
  | .literal value p => .literal value (f p)
  | .binary op left right p => .binary op (left.mapPosition f) (right.mapPosition f) (f p)

@[simp] theorem Lexeme.token_mapPosition (l : Lexeme) : (l.mapPosition f).token = l.token := rfl

@[simp] theorem Lexeme.position_mapPosition (l : Lexeme) :
    (l.mapPosition f).position = f l.position := rfl

/-- The position of an error is moved with it. -/
theorem Error.position_mapPosition (e : Error) : (e.mapPosition f).position = f e.position := by
  rcases e with e | e | e <;> cases e <;> rfl

/-- An error has one position, so that it depends on nothing else where the error is moved. -/
theorem Error.mapPosition_eq {e : Error} {p : Nat} (h : f e.position = p) :
    e.mapPosition f = e.mapPosition fun _ => p := by
  subst h
  rcases e with e | e | e <;> cases e <;> rfl

theorem Error.mapPosition_eq_self {e : Error} (h : f e.position = e.position) :
    e.mapPosition f = e := by
  rw [Error.mapPosition_eq h]
  rcases e with e | e | e <;> cases e <;> rfl

/-- What a word spells does not depend on where it stands. -/
theorem Token.ofWord_map_position (f : Nat → Nat) (c : Char) (word : List Char) (p : Nat) :
    Token.ofWord c word (f p) = (Token.ofWord c word p).mapError (LexError.mapPosition f) := by
  simp only [Token.ofWord, Token.ofDigits]
  split <;> split <;> rfl

/-- A phrase is the same phrase at other positions. -/
theorem Derives.mapPosition {c : Category} {ls : List Lexeme} {e : Expr} (h : Derives c ls e)
    (f : Nat → Nat) : Derives c (ls.map (Lexeme.mapPosition f)) (e.mapPosition f) := by
  induction h with
  | number value p => exact .number value (f p)
  | parens p q _ ih =>
    rw [List.map_append]
    exact .parens (f p) (f q) ih
  | ofFactor _ ih => exact .ofFactor ih
  | ofTerm _ ih => exact .ofTerm ih
  | operation op p _ _ ihleft ihright =>
    rw [List.map_append]
    exact .operation op (f p) ihleft ihright

/-! ### Values at other positions -/

/-- What an operator makes of its operands does not depend on where it stands. -/
theorem Operator.apply_map_position (op : Operator) (left right : Number) (p : Nat) :
    op.apply left right (f p) = (op.apply left right p).mapError (RuntimeError.mapPosition f) := by
  cases op
  case div =>
    simp only [Operator.apply, Operator.divide]
    split <;> rfl
  all_goals
    simp only [Operator.apply, Operator.combine]
    split
    · split <;> rfl
    · rfl

/-- A relation between trees and trees at other positions that putting trees together preserves. -/
structure Expr.Congruence (f : Nat → Nat) (E : Expr → Expr → Prop) : Prop where
  literal (value : Integer) (p : Nat) : E (.literal value p) (.literal value (f p))
  binary {left left' right right' : Expr} (hleft : E left left') (hright : E right right')
    (op : Operator) (p : Nat) : E (.binary op left right p) (.binary op left' right' (f p))

/-- Every congruence relates a tree to itself, moved. -/
theorem Expr.Congruence.mapPosition {E : Expr → Expr → Prop} (h : Expr.Congruence f E)
    (e : Expr) : E e (e.mapPosition f) := by
  induction e with
  | literal value p => exact h.literal value p
  | binary op left right p ihleft ihright => exact h.binary ihleft ihright op p

/-- `e` has the value of `d`, or its error at the position that `f` gives for it. -/
def Expr.Agrees (f : Nat → Nat) (d e : Expr) : Prop :=
  e.evaluate.result = d.evaluate.result.mapError (RuntimeError.mapPosition f)

/-- Trees with the same value agree, whatever they look like. -/
theorem Expr.agrees_of_ok {d e : Expr} {n : Number} (hd : d.evaluate.result = .ok n)
    (he : e.evaluate.result = .ok n) : Expr.Agrees f d e := by
  rw [Expr.Agrees, hd, he]
  rfl

/-- **Agreement is a congruence.** -/
theorem Expr.agrees_congruence : Expr.Congruence f (Expr.Agrees f) where
  literal _ _ := rfl
  binary {left left' right right'} hleft hright op p := by
    rw [Expr.Agrees, Expr.result_evaluate_binary, Expr.result_evaluate_binary, hleft, hright]
    cases left.evaluate.result with
    | error e => rfl
    | ok a =>
      cases right.evaluate.result with
      | error e => rfl
      | ok b => exact op.apply_map_position a b p

/-- A tree that has a value has it at any positions. -/
theorem Expr.result_evaluate_mapPosition {e : Expr} {n : Number}
    (h : e.evaluate.result = .ok n) (f : Nat → Nat) :
    (e.mapPosition f).evaluate.result = .ok n := by
  have hagrees : Expr.Agrees f e (e.mapPosition f) := Expr.agrees_congruence.mapPosition e
  rw [hagrees, h]
  rfl

end Calculator
