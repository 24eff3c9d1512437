import Calculator.Power

/-!
# Decimal numbers and their two written forms

A decimal is a coefficient times a power of ten. It is written positionally, with a point and at
least one digit on each side of it, or in exponent form, with one digit before the point.

## Main definitions

* `Calculator.Decimal`, and `Decimal.trim`, which drops the trailing zeros of the coefficient.
* `Decimal.positional`: `12.5`, `0.0004`, `3.0`.
* `Decimal.scientific`: `1.25e+20`, `1e-05`.
-/

namespace Calculator

open scoped Powers

/-- The number `coefficient * 10 ^ exponent`. -/
structure Decimal where
  coefficient : Nat
  exponent : Int
  deriving DecidableEq

namespace Decimal

/-- The same number with no trailing zero in its coefficient; zero is left alone. -/
def trim (d : Decimal) : Decimal :=
  if h : d.coefficient ≠ 0 ∧ d.coefficient % 10 = 0 then
    trim ⟨d.coefficient / 10, d.exponent + 1⟩
  else d
termination_by d.coefficient
decreasing_by
  omega

/-- The digits of `n`, filled up with zeros on the left to at least `width` of them. -/
def paddedDigits (width n : Nat) : List Char := (Nat.toDigits 10 n).leftpad width '0'

/-- A whole part, a point, and as many decimals as the exponent asks for, one at least. -/
def positional (d : Decimal) : String :=
  if 0 ≤ d.exponent then
    String.ofList (Nat.toDigits 10 (d.coefficient * 10 ^ d.exponent.toNat)) ++ ".0"
  else
    let places := (-d.exponent).toNat
    String.ofList (Nat.toDigits 10 (d.coefficient / 10 ^ places) ++
      '.' :: paddedDigits places (d.coefficient % 10 ^ places))

/-- An exponent of ten with its sign and at least two digits. -/
def exponentText (e : Int) : String :=
  String.ofList ('e' :: (if e < 0 then '-' else '+') :: paddedDigits 2 e.natAbs)

/-- One digit, a point and the other digits if there are any, and the power of ten that puts the
point there. -/
def scientific (d : Decimal) : String :=
  let places := (Nat.toDigits 10 d.coefficient).length - 1
  let lead := Nat.toDigits 10 (d.coefficient / 10 ^ places)
  let mantissa :=
    if places = 0 then lead
    else lead ++ '.' :: paddedDigits places (d.coefficient % 10 ^ places)
  String.ofList mantissa ++ exponentText (d.exponent + places)

end Decimal

end Calculator
