import Calculator.Binary64.Basic

/-!
# The interchange format of binary64 numbers

Bit 63 is the sign, bits 52 to 62 the exponent field, bits 0 to 51 the fraction. The field is zero
for significands below `2 ^ 52` and `shift + 1` otherwise; `2047` marks the infinities and NaNs.

## Main definitions

* `Binary64.ofBits`, `Binary64.toBits`. Every NaN is read as the one NaN, which is written as the
  quiet one with an empty payload.

## Main results

* `Binary64.ofBits_toBits`: writing loses nothing.
-/

namespace Calculator

open scoped Powers

namespace Magnitude

/-- Exponent field and fraction, as one number of 63 bits. -/
def toBits (m : Magnitude) : Nat :=
  if m.significand < 2 ^ (52 : Nat) then m.significand else m.shift * 2 ^ (52 : Nat) + m.significand

/-- The magnitude with the given exponent field and fraction; `none` for the field of the
infinities. -/
def ofFields? (field fraction : Nat) (lt : fraction < 2 ^ (52 : Nat)) : Option Magnitude :=
  if field = 0 then
    some ⟨fraction, 0, by omega, zero.shift_le, .inl rfl⟩
  else if bound : field ≤ 2046 then
    some ⟨2 ^ (52 : Nat) + fraction, field - 1, by omega, by omega, .inr (by omega)⟩
  else none

end Magnitude

namespace Binary64

/-- The number with the given bits. -/
def ofBits (bits : Nat) : Binary64 :=
  let negative := bits / 2 ^ (63 : Nat) % 2 = 1
  let fraction := bits % 2 ^ (52 : Nat)
  match Magnitude.ofFields? (bits / 2 ^ (52 : Nat) % 2 ^ (11 : Nat)) fraction
      (Nat.mod_lt _ (by decide)) with
  | some m => .finite negative m
  | none => if fraction = 0 then .infinite negative else .nan

/-- The bits of a number. -/
def toBits : Binary64 → Nat
  | .nan => 2047 * 2 ^ (52 : Nat) + 2 ^ (51 : Nat)
  | .infinite s => s.toNat * 2 ^ (63 : Nat) + 2047 * 2 ^ (52 : Nat)
  | .finite s m => s.toNat * 2 ^ (63 : Nat) + m.toBits

/-- The number of a sign, an exponent field and a fraction. -/
theorem ofBits_of_fields {bits field fraction : Nat} {negative : Bool}
    (hbits : bits = negative.toNat * 2 ^ (63 : Nat) + field * 2 ^ (52 : Nat) + fraction)
    (hfield : field < 2 ^ (11 : Nat)) (lt : fraction < 2 ^ (52 : Nat)) :
    ofBits bits =
      match Magnitude.ofFields? field fraction lt with
      | some m => .finite negative m
      | none => if fraction = 0 then .infinite negative else .nan := by
  have hnegative := Bool.toNat_le negative
  have hsign : bits / 2 ^ (63 : Nat) % 2 = negative.toNat := by omega
  have hread : bits / 2 ^ (52 : Nat) % 2 ^ (11 : Nat) = field := by omega
  have hrest : bits % 2 ^ (52 : Nat) = fraction := by omega
  subst hread hrest
  rw [ofBits, hsign]
  cases negative <;> rfl

/-- Writing a number and reading it back gives the same number. -/
theorem ofBits_toBits (x : Binary64) : ofBits x.toBits = x := by
  match x with
  | .nan => rfl
  | .infinite false => rfl
  | .infinite true => rfl
  | .finite s ⟨k, e, hk, he, hn⟩ =>
    by_cases h : k < 2 ^ (52 : Nat)
    · obtain rfl : e = 0 := by omega
      have hbits : toBits (.finite s ⟨k, 0, hk, he, hn⟩) =
          s.toNat * 2 ^ (63 : Nat) + 0 * 2 ^ (52 : Nat) + k := by
        simp only [toBits, Magnitude.toBits, if_pos h]
        omega
      rw [ofBits_of_fields hbits (by decide) h]
      rfl
    · have hbits : toBits (.finite s ⟨k, e, hk, he, hn⟩) =
          s.toNat * 2 ^ (63 : Nat) + (e + 1) * 2 ^ (52 : Nat) + (k - 2 ^ (52 : Nat)) := by
        simp only [toBits, Magnitude.toBits, if_neg h]
        omega
      have hsum : 2 ^ (52 : Nat) + (k - 2 ^ (52 : Nat)) = k := by omega
      have hle : e + 1 ≤ 2046 := by omega
      rw [ofBits_of_fields hbits (by omega) (by omega)]
      simp only [Magnitude.ofFields?, Nat.add_one_ne_zero, if_false, dif_pos hle, hsum,
        Nat.add_sub_cancel]

end Binary64

end Calculator
