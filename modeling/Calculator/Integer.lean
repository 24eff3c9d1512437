import Calculator.Power

/-!
# 64-bit integers

Integer arithmetic is done on unbounded integers, and a result is accepted when it is in the range
of 64 bits with a sign. Nothing wraps.

## Main definitions

* `Calculator.Integer`: the integers from `-2 ^ 63` to `2 ^ 63 - 1`.
* `Integer.ofInt?`: an unbounded integer, if it is one of them.

## Main results

* `Integer.ofInt?_eq_some_iff`, `Integer.ofInt?_eq_none_iff`: what `Integer.ofInt?` accepts.
-/

namespace Calculator

open scoped Powers

/-- An integer of 64 bits with a sign. -/
structure Integer where
  toInt : Int
  ge : -2 ^ (63 : Nat) ≤ toInt := by decide
  lt : toInt < 2 ^ (63 : Nat) := by decide
  deriving DecidableEq

namespace Integer

instance : Inhabited Integer := ⟨{ toInt := 0 }⟩

@[ext] theorem ext {m n : Integer} (h : m.toInt = n.toInt) : m = n := by
  cases m
  cases n
  cases h
  rfl

/-- The integer with the given value; `none` if it is out of range. Neither the value nor its
opposite, the negative one of the two cut off at zero, may exceed its bound. -/
def ofInt? (n : Int) : Option Integer :=
  if h : n.toNat < 2 ^ (63 : Nat) ∧ (-n).toNat ≤ 2 ^ (63 : Nat) then
    some ⟨n, by omega, by omega⟩
  else none

theorem ofInt?_eq_some_iff {n : Int} {k : Integer} : ofInt? n = some k ↔ k.toInt = n := by
  rw [ofInt?]
  constructor
  · intro h
    split at h
    · cases h
      rfl
    · cases h
  · rintro rfl
    have h₁ := k.ge
    have h₂ := k.lt
    exact dif_pos (by omega)

theorem ofInt?_eq_none_iff {n : Int} :
    ofInt? n = none ↔ n < -2 ^ (63 : Nat) ∨ 2 ^ (63 : Nat) ≤ n := by
  rw [ofInt?]
  split <;> simp <;> omega

/-- The decimal text of an integer. -/
def render (n : Integer) : String := toString n.toInt

end Integer

end Calculator
