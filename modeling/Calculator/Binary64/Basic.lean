import Calculator.Binary64.Magnitude

/-!
# Binary64 numbers and their arithmetic

The reals of the calculator are the IEEE 754 binary64 numbers. Each operation takes the exact
result on the values of its operands and rounds it once, to nearest with ties to even; the cases
that have no exact value (an infinity, a zero divisor, a NaN) are listed before it.

All NaNs are one value here: no operation of the calculator tells them apart.

## Main definitions

* `Calculator.Binary64`: the numbers. Structural equality tells the two zeros apart and makes NaN
  equal to itself; `Binary64.numEq` is the numeric comparison, which does neither.
* `Binary64.round`: a signed quotient of units, rounded.
* `Binary64.ofInt`: an integer, rounded.
* Instances of `Neg`, `Add`, `Sub`, `Mul` and `Div`.
-/

namespace Calculator

/-- A binary64 number. -/
inductive Binary64 where
  | nan
  | infinite (negative : Bool)
  | finite (negative : Bool) (magnitude : Magnitude)
  deriving DecidableEq

namespace Binary64

/-- The zero of the given sign. -/
def signedZero (negative : Bool) : Binary64 := .finite negative .zero

/-- The number of the given sign nearest to `num / den` units; an infinity beyond the largest
finite magnitude. -/
def round (negative : Bool) (num den : Nat) : Binary64 :=
  match Magnitude.nearest? num den with
  | some m => .finite negative m
  | none => .infinite negative

/-- The number nearest to an integer count of units; zero counts as positive. -/
def roundUnits (n : Int) : Binary64 := round (n < 0) n.natAbs 1

/-- The number nearest to an integer. -/
def ofInt (n : Int) : Binary64 := roundUnits (n * Magnitude.unitsPerOne)

/-- The value of a finite number, counted in units. -/
def signedUnits (negative : Bool) (m : Magnitude) : Int :=
  if negative then -m.units else m.units

/-- Both zeros are zero. -/
def isZero : Binary64 → Bool
  | .finite _ m => m.units = 0
  | _ => false

/-- Numeric comparison: a NaN differs from every number, itself included, and the two zeros are
equal. -/
def numEq : Binary64 → Binary64 → Bool
  | .nan, _ | _, .nan => false
  | x, y => x = y || (x.isZero && y.isZero)

/-! ### Arithmetic -/

/-- The opposite number. -/
protected def neg : Binary64 → Binary64
  | .nan => .nan
  | .infinite s => .infinite !s
  | .finite s m => .finite (!s) m

/-- Opposite infinities have no sum. A sum that is exactly zero is negative only when both terms
are. -/
protected def add : Binary64 → Binary64 → Binary64
  | .nan, _ | _, .nan => .nan
  | .infinite s, .infinite t => if s = t then .infinite s else .nan
  | .infinite s, _ | _, .infinite s => .infinite s
  | .finite s m, .finite t n =>
    let sum := signedUnits s m + signedUnits t n
    if sum = 0 then signedZero (s && t) else roundUnits sum

/-- Subtracting is adding the opposite. -/
protected def sub (x y : Binary64) : Binary64 := x.add y.neg

/-- Zero times an infinity is no number. The sign is negative when the factors' signs differ. -/
protected def mul : Binary64 → Binary64 → Binary64
  | .nan, _ | _, .nan => .nan
  | .infinite s, .infinite t => .infinite (s ^^ t)
  | .infinite s, .finite t m | .finite s m, .infinite t =>
    if m.units = 0 then .nan else .infinite (s ^^ t)
  | .finite s m, .finite t n => round (s ^^ t) (m.units * n.units) Magnitude.unitsPerOne

/-- Zero by zero and infinity by infinity are no numbers; any other number by zero is infinite.
The sign is negative when the operands' signs differ. -/
protected def div : Binary64 → Binary64 → Binary64
  | .nan, _ | _, .nan => .nan
  | .infinite _, .infinite _ => .nan
  | .infinite s, .finite t _ => .infinite (s ^^ t)
  | .finite s _, .infinite t => signedZero (s ^^ t)
  | .finite s m, .finite t n =>
    if n.units = 0 then
      if m.units = 0 then .nan else .infinite (s ^^ t)
    else round (s ^^ t) (m.units * Magnitude.unitsPerOne) n.units

instance : Neg Binary64 := ⟨Binary64.neg⟩
instance : Add Binary64 := ⟨Binary64.add⟩
instance : Sub Binary64 := ⟨Binary64.sub⟩
instance : Mul Binary64 := ⟨Binary64.mul⟩
instance : Div Binary64 := ⟨Binary64.div⟩

end Binary64

end Calculator
