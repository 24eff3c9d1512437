import Calculator.Proofs.Decimals
import Calculator.Proofs.Digits

/-!
# What decimal texts denote

A decimal text is read here without regard to how such texts are written: there are digits, perhaps
a point and more digits, and perhaps an exponent, which may have a sign and any number of digits. It
denotes a rational number. Whatever is not such a text denotes nothing.

The two written forms of a decimal denote the decimal. In both the digits of the coefficient are
taken apart at a point, and the digits after it are filled up with zeros on the left; as the number
of places is part of what they mean, it has to be shown that there are as many as there should be.

## Main definitions

* `Numeral.value?`: the number that a text denotes, with `Numeral.natural?`, `Numeral.mantissa?` and
  `Numeral.exponent?` for its parts.
* `pointed`: digits with a point in them.

## Main results

* `Numeral.mantissa?_pointed`: where the point is.
* `Numeral.value?_positional`, `Numeral.value?_scientific`: the written forms of a decimal.
-/

namespace Calculator

/-! ### Reading -/

namespace Numeral

/-- What stands before the first place of a character and what stands after it. -/
def splitOnce? (c : Char) (cs : List Char) : Option (List Char × List Char) :=
  if c ∈ cs then some (cs.takeWhile (· ≠ c), (cs.dropWhile (· ≠ c)).tail) else none

/-- Digits, one at least. -/
def natural? (cs : List Char) : Option Nat :=
  if cs ≠ [] ∧ cs.all Char.isDigit = true then some (decimalValue cs) else none

/-- Digits, and perhaps a point and digits after it, each of which counts a tenth of the one before
it. -/
def mantissa? (cs : List Char) : Option ℚ :=
  match splitOnce? '.' cs with
  | none => (natural? cs).map fun n : Nat => (n : ℚ)
  | some (whole, decimals) => do
    let n ← natural? whole
    let k ← natural? decimals
    return n + k / (10 ^ decimals.length : Nat)

/-- Digits, and perhaps a sign before them. -/
def exponent? : List Char → Option Int
  | '-' :: cs => (natural? cs).map fun n : Nat => -(n : Int)
  | '+' :: cs => (natural? cs).map fun n : Nat => (n : Int)
  | cs => (natural? cs).map fun n : Nat => (n : Int)

/-- The number that a text without a sign denotes: what stands before the first `e`, times the power
of ten that stands after it. -/
def value? (cs : List Char) : Option ℚ :=
  match splitOnce? 'e' cs with
  | none => mantissa? cs
  | some (mantissa, exponent) => do
    let q ← mantissa? mantissa
    let k ← exponent? exponent
    return q * 10 ^ k

theorem splitOnce?_eq_none_iff {c : Char} {cs : List Char} : splitOnce? c cs = none ↔ c ∉ cs := by
  rw [splitOnce?]
  split <;> simp [*]

theorem splitOnce?_append {c : Char} {xs : List Char} (h : c ∉ xs) (ys : List Char) :
    splitOnce? c (xs ++ c :: ys) = some (xs, ys) := by
  have hxs : ∀ d ∈ xs, decide (d ≠ c) = true := fun d hd =>
    decide_eq_true fun heq => h (heq ▸ hd)
  rw [splitOnce?, if_pos (List.mem_append_cons_self ..), List.takeWhile_append_of_pos hxs,
    List.dropWhile_append_of_pos hxs]
  simp

theorem splitOnce?_eq_some_iff {c : Char} {cs xs ys : List Char} :
    splitOnce? c cs = some (xs, ys) ↔ cs = xs ++ c :: ys ∧ c ∉ xs := by
  constructor
  · intro h
    by_cases hc : c ∈ cs
    · obtain ⟨xs', ys', rfl, hxs'⟩ := List.eq_append_cons_of_mem hc
      rw [splitOnce?_append hxs'] at h
      cases h
      exact ⟨rfl, hxs'⟩
    · rw [splitOnce?_eq_none_iff.mpr hc] at h
      cases h
  · rintro ⟨rfl, h⟩
    exact splitOnce?_append h ys

theorem natural?_eq_none {c : Char} {cs : List Char} (hc : c ∈ cs) (h : c.isDigit = false) :
    natural? cs = none := by
  refine if_neg fun hdigits => ?_
  have hdigit := List.all_eq_true.mp hdigits.2 c hc
  rw [h] at hdigit
  cases hdigit

theorem natural?_of_digits {cs : List Char} (hne : cs ≠ []) (h : ∀ c ∈ cs, c.isDigit = true) :
    natural? cs = some (decimalValue cs) :=
  if_pos ⟨hne, List.all_eq_true.mpr h⟩

theorem natural?_toDigits (n : Nat) : natural? (Nat.toDigits 10 n) = some n := by
  rw [natural?_of_digits Nat.toDigits_ne_nil fun _ =>
      Nat.isDigit_of_mem_toDigits (by decide) (by decide),
    ← ofDigitChars_eq_decimalValue, Nat.ofDigitChars_ten_toDigits]

end Numeral

/-! ### Digits with a point -/

theorem isDigit_of_mem_paddedDigits {width n : Nat} {c : Char}
    (h : c ∈ Decimal.paddedDigits width n) : c.isDigit = true := by
  rw [Decimal.paddedDigits, List.leftpad, List.mem_append, List.mem_replicate] at h
  rcases h with ⟨-, rfl⟩ | h
  · rfl
  · exact Nat.isDigit_of_mem_toDigits (by decide) (by decide) h

/-- Digits are filled up to the width, if the number is not too large. -/
theorem length_paddedDigits {width n : Nat} (hwidth : 0 < width) (h : n < 10 ^ width) :
    (Decimal.paddedDigits width n).length = width := by
  rw [Decimal.paddedDigits, List.length_leftpad]
  exact Nat.max_eq_left ((Nat.length_toDigits_le_iff (by decide) hwidth).mpr h)

theorem le_length_paddedDigits (width n : Nat) : width ≤ (Decimal.paddedDigits width n).length := by
  rw [Decimal.paddedDigits, List.length_leftpad]
  exact Nat.le_max_left _ _

/-- The digits of a number with a point before the last of them, as many as there are places. -/
def pointed (places n : Nat) : List Char :=
  Nat.toDigits 10 (n / 10 ^ places) ++ '.' :: Decimal.paddedDigits places (n % 10 ^ places)

theorem of_mem_pointed {places n : Nat} {c : Char} (h : c ∈ pointed places n) :
    c.isDigit = true ∨ c = '.' := by
  rw [pointed, List.mem_append, List.mem_cons] at h
  rcases h with h | rfl | h
  · exact .inl (Nat.isDigit_of_mem_toDigits (by decide) (by decide) h)
  · exact .inr rfl
  · exact .inl (isDigit_of_mem_paddedDigits h)

namespace Numeral

theorem natural?_paddedDigits (width n : Nat) :
    natural? (Decimal.paddedDigits width n) = some n := by
  have hne : Decimal.paddedDigits width n ≠ [] :=
    List.append_ne_nil_of_right_ne_nil _ Nat.toDigits_ne_nil
  rw [natural?_of_digits hne fun _ => isDigit_of_mem_paddedDigits, ← ofDigitChars_eq_decimalValue,
    Decimal.paddedDigits, List.leftpad, Nat.ofDigitChars_append, Nat.ofDigitChars_replicate_zero,
    Nat.mul_zero, Nat.ofDigitChars_ten_toDigits]

theorem mantissa?_toDigits (n : Nat) : mantissa? (Nat.toDigits 10 n) = some (n : ℚ) := by
  rw [mantissa?, splitOnce?_eq_none_iff.mpr (notMem_toDigits rfl n), natural?_toDigits]
  rfl

/-- **Where the point is.** -/
theorem mantissa?_pointed {places : Nat} (h : 0 < places) (n : Nat) :
    mantissa? (pointed places n) = some ((n : ℚ) / (10 ^ places : Nat)) := by
  have hpower : 0 < 10 ^ places := Nat.pow_pos (by decide)
  rw [mantissa?, pointed, splitOnce?_append (notMem_toDigits rfl _)]
  simp only [natural?_toDigits, natural?_paddedDigits, length_paddedDigits h (Nat.mod_lt n hpower),
    Option.bind_eq_bind, Option.bind_some]
  rw [← natCast_div_eq hpower]
  rfl

theorem exponent?_toDigits (n : Nat) : exponent? (Nat.toDigits 10 n) = some (n : Int) := by
  rw [exponent?.eq_3 _ (toDigits_ne_cons rfl n) (toDigits_ne_cons rfl n), natural?_toDigits]
  rfl

end Numeral

/-! ### The written forms -/

namespace Numeral

theorem e_notMem_pointed (places n : Nat) : 'e' ∉ pointed places n := by
  intro h
  rcases of_mem_pointed h with h | h <;> revert h <;> decide

theorem natural?_pointed (places n : Nat) : natural? (pointed places n) = none :=
  natural?_eq_none (List.mem_append_cons_self ..) (by decide : '.'.isDigit = false)

theorem value?_pointed {places : Nat} (h : 0 < places) (n : Nat) :
    value? (pointed places n) = some ((n : ℚ) / (10 ^ places : Nat)) := by
  rw [value?, splitOnce?_eq_none_iff.mpr (e_notMem_pointed places n), mantissa?_pointed h]

theorem value?_append_exponent {xs ys : List Char} {q : ℚ} {k : Int} (he : 'e' ∉ xs)
    (hq : mantissa? xs = some q) (hk : exponent? ys = some k) :
    value? (xs ++ 'e' :: ys) = some (q * 10 ^ k) := by
  rw [value?, splitOnce?_append he]
  simp only [hq, hk]
  rfl

/-- An exponent may be written with a sign and filled up with zeros. -/
theorem exponent?_signed (k : Int) (width : Nat) :
    exponent? ((if k < 0 then '-' else '+') :: Decimal.paddedDigits width k.natAbs) = some k := by
  split
  · next h =>
    rw [exponent?, natural?_paddedDigits, Option.map_some, Int.ofNat_natAbs_of_nonpos (by omega),
      Int.neg_neg]
  · next h =>
    rw [exponent?, natural?_paddedDigits, Option.map_some, Int.natAbs_of_nonneg (by omega)]

end Numeral

namespace Decimal

/-- A number without decimals is written with one decimal, which is zero. -/
theorem toList_positional_of_nonneg {d : Decimal} (h : 0 ≤ d.exponent) :
    d.positional.toList = pointed 1 (10 * (d.coefficient * 10 ^ d.exponent.toNat)) := by
  rw [positional, if_pos h, String.toList_append, String.toList_ofList, pointed, Nat.pow_one,
    Nat.mul_div_cancel_left _ (by decide), Nat.mul_mod_right]
  rfl

theorem toList_positional_of_neg {d : Decimal} (h : d.exponent < 0) :
    d.positional.toList = pointed (-d.exponent).toNat d.coefficient := by
  rw [positional, if_neg (by omega), String.toList_ofList]
  rfl

/-- **Positional form** has a point in it and no exponent, and denotes the decimal. -/
theorem exists_toList_positional (d : Decimal) :
    ∃ places n, 0 < places ∧ d.positional.toList = pointed places n ∧
      (n : ℚ) / (10 ^ places : Nat) = d.toRat := by
  rcases lt_or_ge d.exponent 0 with h | h
  · exact ⟨_, _, by omega, toList_positional_of_neg h, (toRat_of_nonpos h.le).symm⟩
  · refine ⟨_, _, Nat.one_pos, toList_positional_of_nonneg h, ?_⟩
    rw [toRat_of_nonneg h, Nat.cast_mul 10, Nat.pow_one, mul_div_cancel_left₀ _ (by norm_num)]

theorem value?_positional (d : Decimal) : Numeral.value? d.positional.toList = some d.toRat := by
  obtain ⟨places, n, hplaces, htext, hvalue⟩ := d.exists_toList_positional
  rw [htext, Numeral.value?_pointed hplaces, hvalue]

/-- How many digits of the coefficient stand after the first one. -/
def places (d : Decimal) : Nat := (Nat.toDigits 10 d.coefficient).length - 1

/-- The coefficient with a point after the first digit, if there are others. -/
def mantissa (d : Decimal) : List Char :=
  if d.places = 0 then Nat.toDigits 10 d.coefficient else pointed d.places d.coefficient

theorem mantissa?_mantissa (d : Decimal) :
    Numeral.mantissa? d.mantissa = some ((d.coefficient : ℚ) / (10 ^ d.places : Nat)) := by
  rw [mantissa]
  split
  · next h => rw [Numeral.mantissa?_toDigits, h, Nat.pow_zero, Nat.cast_one, div_one]
  · next h => exact Numeral.mantissa?_pointed (by omega) _

theorem e_notMem_mantissa (d : Decimal) : 'e' ∉ d.mantissa := by
  rw [mantissa]
  split
  · exact notMem_toDigits rfl _
  · exact Numeral.e_notMem_pointed _ _

/-- The point is moved after the first digit, and the exponent makes up for that. -/
theorem mantissa_mul_zpow (d : Decimal) :
    (d.coefficient : ℚ) / (10 ^ d.places : Nat) * 10 ^ (d.exponent + d.places) = d.toRat := by
  rw [zpow_add₀ (by norm_num), zpow_natCast, toRat]
  push_cast
  field_simp

theorem toList_exponentText (k : Int) :
    (exponentText k).toList = 'e' :: (if k < 0 then '-' else '+') :: paddedDigits 2 k.natAbs := by
  rw [exponentText, String.toList_ofList]

theorem toList_scientific (d : Decimal) :
    d.scientific.toList = d.mantissa ++ (exponentText (d.exponent + d.places)).toList := by
  have hmantissa : d.mantissa =
      if d.places = 0 then Nat.toDigits 10 (d.coefficient / 10 ^ d.places)
      else pointed d.places d.coefficient := by
    rw [mantissa]
    split
    · next h => rw [h, Nat.pow_zero, Nat.div_one]
    · rfl
  rw [scientific, String.toList_append, String.toList_ofList, hmantissa]
  rfl

/-- **Exponent form** denotes the decimal. -/
theorem value?_scientific (d : Decimal) : Numeral.value? d.scientific.toList = some d.toRat := by
  rw [toList_scientific, toList_exponentText, Numeral.value?_append_exponent d.e_notMem_mantissa
    d.mantissa?_mantissa (Numeral.exponent?_signed _ 2), mantissa_mul_zpow]

end Decimal

end Calculator
