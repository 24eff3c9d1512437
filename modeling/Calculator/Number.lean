import Calculator.Binary64.Shortest
import Calculator.Integer

/-!
# Values of expressions

A value is a 64-bit integer or a binary64 real. Integers stay integers until a division; a real
operand makes every later result real.

## Main definitions

* `Calculator.Number`, with its text `Number.render` and its promotion `Number.toReal`.
* `Number.same`: the numeric comparison, which tells integers from reals.
-/

namespace Calculator

inductive Number where
  | integer (value : Integer)
  | real (value : Binary64)
  deriving DecidableEq

namespace Number

def isInteger : Number → Bool
  | .integer _ => true
  | .real _ => false

/-- The value as a real; an integer of more than 53 bits is rounded. -/
def toReal : Number → Binary64
  | .integer n => .ofInt n.toInt
  | .real x => x

/-- Numeric comparison within a kind: an integer is never the same as a real, a NaN is not the
same as itself, the two zeros are the same. -/
def same : Number → Number → Bool
  | .integer m, .integer n => m = n
  | .real x, .real y => x.numEq y
  | _, _ => false

/-- The text of a value. -/
def render : Number → String
  | .integer n => n.render
  | .real x => x.render

end Number

end Calculator
