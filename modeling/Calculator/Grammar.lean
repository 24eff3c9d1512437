import Calculator.Expr

/-!
# The grammar of expressions

```
expression := term (('+' | '-') term)*
term       := factor (('*' | '/') factor)*
factor     := NUMBER | '(' expression ')'
```

Operators of one category associate to the left, so the grammar is stated here with left recursion:
an expression is a term, or an expression, an operator and a term.

## Main definitions

* `Calculator.Category`: the three categories.
* `Operator.category`, `Operator.operand`: the category of an operation, which is that of its left
  operand too, and the category of its right operand.
* `Calculator.Derives`: which lexemes make up which tree.
-/

namespace Calculator

/-- A category of the grammar. -/
inductive Category where
  | factor
  | term
  | expression
  deriving DecidableEq, Inhabited

/-- How far a category is above the factors. -/
def Category.rank : Category → Nat
  | .factor => 0
  | .term => 1
  | .expression => 2

namespace Operator

/-- The category of an operation. -/
def category : Operator → Category
  | .add | .sub => .expression
  | .mul | .div => .term

/-- The category of the right operand of an operation. -/
def operand : Operator → Category
  | .add | .sub => .term
  | .mul | .div => .factor

end Operator

/-- `Derives c ls e`: the lexemes `ls` form a phrase of category `c` whose tree is `e`. -/
inductive Derives : Category → List Lexeme → Expr → Prop where
  | number (value : Integer) (p : Nat) :
    Derives .factor [⟨.number value, p⟩] (.literal value p)
  | parens {ls : List Lexeme} {e : Expr} (p q : Nat) (inner : Derives .expression ls e) :
    Derives .factor (⟨.leftParen, p⟩ :: ls ++ [⟨.rightParen, q⟩]) e
  | ofFactor {ls : List Lexeme} {e : Expr} (h : Derives .factor ls e) : Derives .term ls e
  | ofTerm {ls : List Lexeme} {e : Expr} (h : Derives .term ls e) : Derives .expression ls e
  | operation {ls rs : List Lexeme} {left right : Expr} (op : Operator) (p : Nat)
    (hleft : Derives op.category ls left) (hright : Derives op.operand rs right) :
    Derives op.category (ls ++ ⟨op.token, p⟩ :: rs) (.binary op left right p)

end Calculator
