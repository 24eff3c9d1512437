import Calculator.Binary64.Basic
import Calculator.Decimal

/-!
# The text of a binary64 number

A number is written with the fewest decimal digits that still read back as that number. The
decimals with a given last place form a grid; of a grid only the two points next to the exact
value need to be looked at. The first grid, from coarse to fine, that has a point which reads back
gives the digits.

## Main definitions

* `Magnitude.ofDecimal?`: the magnitude nearest to a decimal, which is how a decimal reads.
* `Magnitude.shortest`: the shortest decimal that reads as the magnitude.
* `Binary64.render`: the text of a number.
-/

namespace Calculator

open scoped Powers

namespace Magnitude

/-- The magnitude nearest to a decimal; `none` beyond the largest finite one. -/
def ofDecimal? (d : Decimal) : Option Magnitude :=
  nearest? (d.coefficient * 10 ^ d.exponent.toNat * unitsPerOne) (10 ^ (-d.exponent).toNat)

/-- The magnitude itself as a decimal: a unit is `5 ^ 1074` times a power of ten. -/
def exactDecimal (m : Magnitude) : Decimal := ⟨m.units * 5 ^ unitExponent, -unitExponent⟩

/-- How many digits the whole part has: `10 ^ (order - 1) ≤ m < 10 ^ order`. Below one it is zero
or negative; the power that is added and taken away again makes the least magnitude exceed one. -/
def order (m : Magnitude) : Int :=
  (Nat.toDigits 10 (m.units * 10 ^ (324 : Nat) / unitsPerOne)).length - 324

/-- Of the multiples of `10 ^ exponent` next to the magnitude on either side, one that reads as
it: the nearer if both do, and the upper one if they are equally near. -/
def onGrid? (m : Magnitude) (exponent : Int) : Option Decimal :=
  let num := m.units * 10 ^ (-exponent).toNat
  let den := unitsPerOne * 10 ^ exponent.toNat
  let lower : Decimal := ⟨num / den, exponent⟩
  let upper : Decimal := ⟨num / den + 1, exponent⟩
  if ofDecimal? upper = some m ∧ (ofDecimal? lower ≠ some m ∨ den ≤ 2 * (num % den)) then
    some upper
  else if ofDecimal? lower = some m then some lower
  else none

/-- The shortest decimal that reads as the magnitude. Seventeen digits are always enough; the
exact value stands behind them so that the result reads back in any case. -/
def shortest (m : Magnitude) : Decimal :=
  let found := (List.range 17).findSome? fun n : Nat => m.onGrid? (m.order - (n + 1 : Nat))
  (found.getD m.exactDecimal).trim

/-- Whole numbers are written in full. -/
def isWhole (m : Magnitude) : Bool := m.units % unitsPerOne = 0

/-- Exponent form is for nonzero magnitudes below `10 ^ -4` and for those from `10 ^ 16` on. -/
def usesExponent (m : Magnitude) : Bool :=
  m.units ≠ 0 ∧
    (m.units * 10 ^ (4 : Nat) < unitsPerOne ∨ 10 ^ (16 : Nat) * unitsPerOne ≤ m.units)

/-- The text of a magnitude. -/
def render (m : Magnitude) : String :=
  if m.usesExponent then m.shortest.scientific
  else if m.isWhole then Decimal.positional ⟨m.units / unitsPerOne, 0⟩
  else m.shortest.positional

end Magnitude

namespace Binary64

/-- The text of a number. The sign of a zero is written. -/
def render : Binary64 → String
  | .nan => "NaN"
  | .infinite negative => if negative then "-inf" else "inf"
  | .finite negative m => if negative then "-" ++ m.render else m.render

end Binary64

end Calculator
