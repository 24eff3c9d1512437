import Calculator.Error
import Calculator.Outcome

/-!
# The value of an expression

Operands are evaluated before their operation, the left one first. Sums, differences and products
of integers are exact, or there is no result; with a real operand, and in every division, both
operands become reals.

## Main definitions

* `Operator.apply`: one operation on two values.
* `Expr.evaluate`: the value of an expression, with a record of the operations that succeeded.
-/

namespace Calculator

namespace Operator

/-- Two integers are combined exactly, which fails if the result needs more than 64 bits;
otherwise both values are combined as reals. -/
def combine (onIntegers : Int → Int → Int) (onReals : Binary64 → Binary64 → Binary64)
    (left right : Number) (position : Nat) : Except RuntimeError Number :=
  match left, right with
  | .integer a, .integer b =>
    match Integer.ofInt? (onIntegers a.toInt b.toInt) with
    | some n => .ok (.integer n)
    | none => .error (.overflow position)
  | _, _ => .ok (.real (onReals left.toReal right.toReal))

/-- Divides as reals. There is no division by zero, of whichever sign. -/
def divide (left right : Number) (position : Nat) : Except RuntimeError Number :=
  if right.toReal.isZero then .error (.divisionByZero position)
  else .ok (.real (left.toReal / right.toReal))

/-- Applies an operator that stands at a position to two values. -/
def apply (op : Operator) (left right : Number) (position : Nat) : Except RuntimeError Number :=
  match op with
  | .add => combine (· + ·) (· + ·) left right position
  | .sub => combine (· - ·) (· - ·) left right position
  | .mul => combine (· * ·) (· * ·) left right position
  | .div => divide left right position

/-- Applies an operator, and records that if it succeeds. -/
def applyLogged (op : Operator) (left right : Number) (position : Nat) :
    Logged RuntimeError Number :=
  match op.apply left right position with
  | .ok value => ⟨.ok value, [.applied op left right value]⟩
  | .error e => .error e

end Operator

namespace Expr

/-- The value of an expression. -/
def evaluate : Expr → Logged RuntimeError Number
  | .literal value _ => return .integer value
  | .binary op left right position => do
    let a ← left.evaluate
    let b ← right.evaluate
    op.applyLogged a b position

end Expr

end Calculator
