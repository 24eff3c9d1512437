import Calculator.Power

/-!
# Finite binary64 magnitudes, and rounding to the nearest one

Everything inexact in the calculator goes through the two functions of this module: a quotient
of natural numbers is rounded to the nearest natural number, and to the nearest number that has
a significand of at most 53 bits. In both a value halfway between two neighbours goes to the even
one.

Magnitudes are counted in *units*, the least positive binary64 magnitude `2 ^ -1074`, so that
every finite magnitude is a natural number of units and no negative exponent occurs.

## Main definitions

* `Calculator.roundQuotient`: the natural number nearest to `num / den`.
* `Calculator.Magnitude`: the finite binary64 magnitudes.
* `Calculator.Magnitude.nearest?`: the magnitude nearest to `num / den` units.

## Main results

* `Calculator.div_le_roundQuotient`, `Calculator.roundQuotient_le_div_succ`: rounding gives one
  of the two neighbours.
* `Calculator.roundQuotient_eq_div`: an exact quotient is not changed.
-/

namespace Calculator

open scoped Powers

/-- The natural number nearest to `num / den`; of two that are equally near, the even one. -/
def roundQuotient (num den : Nat) : Nat :=
  match compare (2 * (num % den)) den with
  | .lt => num / den
  | .eq => num / den + num / den % 2
  | .gt => num / den + 1

theorem div_le_roundQuotient (num den : Nat) : num / den ≤ roundQuotient num den := by
  rw [roundQuotient]
  split <;> omega

theorem roundQuotient_le_div_succ (num den : Nat) :
    roundQuotient num den ≤ num / den + 1 := by
  rw [roundQuotient]
  split <;> omega

/-- A quotient without remainder is its own rounding. -/
theorem roundQuotient_eq_div {num den : Nat} (hden : 0 < den) (h : num % den = 0) :
    roundQuotient num den = num / den := by
  have hlt : compare (2 * (num % den)) den = .lt := by
    rw [h]
    exact Nat.compare_eq_lt.2 hden
  simp [roundQuotient, hlt]

/-! ### Magnitudes -/

/-- A finite binary64 magnitude: `significand * 2 ^ shift` units of `2 ^ -1074`. The significand
has 53 bits unless the shift is zero, so each magnitude has one form only. -/
structure Magnitude where
  significand : Nat
  shift : Nat
  significand_lt : significand < 2 ^ (53 : Nat)
  shift_le : shift ≤ 2045
  normal : shift = 0 ∨ 2 ^ (52 : Nat) ≤ significand
  deriving DecidableEq

namespace Magnitude

/-- A unit is one over two to this power. -/
def unitExponent : Nat := 1074

/-- The number one, counted in units. -/
def unitsPerOne : Nat := 2 ^ unitExponent

/-- The magnitude, counted in units. -/
def units (m : Magnitude) : Nat := m.significand * 2 ^ m.shift

/-- The zero magnitude. -/
def zero : Magnitude := ⟨0, 0, by decide, by decide, .inl rfl⟩

@[simp] theorem units_zero : zero.units = 0 := rfl

theorem unitsPerOne_pos : 0 < unitsPerOne := Nat.two_pow_pos unitExponent

/-- `significand * 2 ^ shift` units, for a significand that may have just reached 54 bits; `none`
beyond the largest finite magnitude. -/
def ofScaled? (significand shift : Nat) (le : significand ≤ 2 ^ (53 : Nat))
    (normal : shift = 0 ∨ 2 ^ (52 : Nat) ≤ significand) : Option Magnitude :=
  if carry : significand = 2 ^ (53 : Nat) then
    if bound : shift + 1 ≤ 2045 then
      some ⟨2 ^ (52 : Nat), shift + 1, by decide, bound, .inr (Nat.le_refl _)⟩
    else none
  else
    if bound : shift ≤ 2045 then
      some ⟨significand, shift, Nat.lt_of_le_of_ne le carry, bound, normal⟩
    else none

/-- The shift at which the whole part of `q` units has at most 53 bits, and 53 of them unless the
shift is zero. -/
def shiftOf (q : Nat) : Nat := q.log2 - 52

theorem div_shiftOf_lt (q : Nat) : q / 2 ^ shiftOf q < 2 ^ (53 : Nat) := by
  rw [Nat.div_lt_iff_lt_mul (Nat.two_pow_pos _), ← Nat.pow_add]
  exact Nat.lt_of_lt_of_le Nat.lt_log2_self
    (Nat.pow_le_pow_right (by decide) (by unfold shiftOf; omega))

theorem shiftOf_eq_zero_or (q : Nat) : shiftOf q = 0 ∨ 2 ^ (52 : Nat) ≤ q / 2 ^ shiftOf q := by
  by_cases h : shiftOf q = 0
  · exact .inl h
  · refine .inr ((Nat.le_div_iff_mul_le (Nat.two_pow_pos _)).2 ?_)
    have hlog : 52 + shiftOf q = q.log2 := by unfold shiftOf at h ⊢; omega
    have hq : q ≠ 0 := by
      rintro rfl
      exact h rfl
    rw [← Nat.pow_add, hlog]
    exact Nat.log2_self_le hq

/-- The magnitude nearest to `num / den` units, an exact half going to the even significand;
`none` when that is beyond the largest finite magnitude. -/
def nearest? (num den : Nat) : Option Magnitude :=
  let shift := shiftOf (num / den)
  ofScaled? (roundQuotient num (den * 2 ^ shift)) shift
    (by
      have h := div_shiftOf_lt (num / den)
      rw [Nat.div_div_eq_div_mul] at h
      exact Nat.le_trans (roundQuotient_le_div_succ _ _) h)
    (by
      have h := shiftOf_eq_zero_or (num / den)
      rw [Nat.div_div_eq_div_mul] at h
      exact h.imp_right fun h => Nat.le_trans h (div_le_roundQuotient _ _))

end Magnitude

end Calculator
