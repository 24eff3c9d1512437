import Calculator.Evaluation
import Calculator.Proofs.Rounding

/-!
# Division of integers

Two integers are divided as reals. There is a rounding of either operand, which changes integers of
more than 53 bits, and then a rounding of the quotient. What could go wrong does not: the divisor
becomes zero only if it was zero before, which matters because the test for zero comes after the
rounding; a quotient of integers neither becomes too large nor disappears; and a quotient that is an
integer comes out as this integer, if there is nothing to round in the dividend.

All of this follows from two properties of rounding: it does not go past a magnitude, and it does
not change a magnitude. The sizes of the operands lie between the magnitudes `1` and `2 ^ 63`, and
so the sizes of the quotients between `2 ^ -63` and `2 ^ 63`.

## Main definitions

* `Binary64.signed`: a rational number, by its sign and its size.
* `Binary64.toRat?`: the value of a finite number.
* `Binary64.IsRounding`: a finite number is the rounding of a rational number.
* `Binary64.Promotes`: what is known of the value of an integer as a real.

## Main results

* `Binary64.isRounding_ofInt`, `Binary64.isRounding_div`: integers and quotients are rounded.
* `Binary64.exists_promotes`, `Binary64.Promotes.exists_div`: what the roundings leave of an
  integer, and of a quotient of integers.
* `Operator.apply_div_integers`: division of integers.
-/

namespace Calculator

theorem Integer.abs_toInt_le (k : Integer) : |(k.toInt : ℚ)| ≤ 2 ^ 63 := by
  have hge := k.ge
  have hlt := k.lt
  have hint : |k.toInt| ≤ 2 ^ 63 := by
    rw [abs_le]
    omega
  exact_mod_cast hint

namespace Binary64

open Magnitude

/-! ### Signs and sizes -/

/-- The rational number of a sign and a size. -/
def signed (negative : Bool) (size : ℚ) : ℚ := if negative then -size else size

theorem abs_signed (negative : Bool) {size : ℚ} (h : 0 ≤ size) : |signed negative size| = size := by
  cases negative with
  | false => exact abs_of_nonneg h
  | true => exact (abs_neg size).trans (abs_of_nonneg h)

theorem signed_eq_zero_iff {negative : Bool} {size : ℚ} : signed negative size = 0 ↔ size = 0 := by
  cases negative with
  | false => exact Iff.rfl
  | true => exact neg_eq_zero

theorem signed_div_signed (s t : Bool) (p q : ℚ) :
    signed s p / signed t q = signed (s ^^ t) (p / q) := by
  cases s <;> cases t <;> simp [signed, neg_div, div_neg]

theorem signed_natAbs (n : Int) : signed (n < 0) n.natAbs = n := by
  rcases Int.lt_or_le n 0 with h | h
  · rw [signed, if_pos (decide_eq_true h), ← Int.cast_natCast, Int.ofNat_natAbs_of_nonpos h.le,
      Int.cast_neg, neg_neg]
  · rw [signed, if_neg (by simpa using h), ← Int.cast_natCast, Int.natAbs_of_nonneg h]

/-! ### Values and roundings -/

/-- The value of a finite number. -/
def toRat? : Binary64 → Option ℚ
  | .finite negative m => some (signed negative m.toRat)
  | .infinite _ | .nan => none

/-- The number is finite, its magnitude is the rounding of the size of a rational number, and its
sign is that of the rational number. A zero may have either sign. -/
inductive IsRounding : Binary64 → ℚ → Prop
  | finite (negative : Bool) {m : Magnitude} {size : ℚ} (nonneg : 0 ≤ size)
    (nearest : m.IsNearest size) : IsRounding (.finite negative m) (signed negative size)

variable {x y : Binary64} {p q v : ℚ} {n : Magnitude}

theorem IsRounding.exists_toRat? (h : x.IsRounding q) : ∃ v, x.toRat? = some v := by
  cases h with
  | finite => exact ⟨_, rfl⟩

theorem IsRounding.le_abs (h : x.IsRounding q) (hv : x.toRat? = some v) (hn : n.toRat ≤ |q|) :
    n.toRat ≤ |v| := by
  cases h with
  | finite negative nonneg nearest =>
    cases hv
    rw [abs_signed _ nonneg] at hn
    rw [abs_signed _ (toRat_nonneg _)]
    exact nearest.le_toRat hn

theorem IsRounding.abs_le (h : x.IsRounding q) (hv : x.toRat? = some v) (hn : |q| ≤ n.toRat) :
    |v| ≤ n.toRat := by
  cases h with
  | finite negative nonneg nearest =>
    cases hv
    rw [abs_signed _ nonneg] at hn
    rw [abs_signed _ (toRat_nonneg _)]
    exact nearest.toRat_le hn

/-- A rational number whose size is a magnitude is not changed. -/
theorem IsRounding.eq (h : x.IsRounding q) (hv : x.toRat? = some v) (hn : n.toRat = |q|) :
    v = q := by
  cases h with
  | finite negative nonneg nearest =>
    cases hv
    rw [abs_signed _ nonneg] at hn
    rw [nearest.toRat_eq hn]

/-- An integer of up to 53 bits is not changed. -/
theorem IsRounding.eq_intCast {k : Int} (h : x.IsRounding k) (hv : x.toRat? = some v)
    (hk : |k| ≤ 2 ^ 53) : v = k := by
  have hnat : k.natAbs ≤ 2 ^ 53 := by
    rw [Int.abs_eq_natAbs] at hk
    exact_mod_cast hk
  obtain ⟨n, hn⟩ := exists_toRat_eq_natCast hnat
  exact h.eq hv (n := n) (by rw [hn, Nat.cast_natAbs, Int.cast_abs])

/-- The test for zero looks at the value. -/
theorem isZero_iff (hv : x.toRat? = some v) : x.isZero = true ↔ v = 0 := by
  cases x with
  | nan | infinite => cases hv
  | finite negative m =>
    cases hv
    rw [isZero, decide_eq_true_iff, signed_eq_zero_iff, toRat,
      div_eq_zero_iff, or_iff_left cast_unitsPerOne_ne_zero, Nat.cast_eq_zero]

/-! ### What is rounded -/

/-- A quotient of units that is not too large is rounded. -/
theorem isRounding_round {num den : Nat} (negative : Bool) (hden : 0 < den)
    (h : (num : ℚ) / den / unitsPerOne < overflowBound) :
    (round negative num den).IsRounding (signed negative (num / den / unitsPerOne)) := by
  have hnonneg : (0 : ℚ) ≤ num / den / unitsPerOne :=
    div_nonneg (div_nonneg num.cast_nonneg den.cast_nonneg) unitsPerOne.cast_nonneg
  unfold round
  split
  · next m hm => exact .finite negative hnonneg ((nearest?_eq_some_iff hden).mp hm)
  · next hm => exact absurd ((nearest?_eq_none_iff hden).mp hm) (not_le.mpr h)

/-- **An integer is rounded.** -/
theorem isRounding_ofInt {k : Int} (h : |(k : ℚ)| < overflowBound) :
    (ofInt k).IsRounding k := by
  have hunits : ((k * unitsPerOne).natAbs : ℚ) / (1 : Nat) / unitsPerOne = k.natAbs := by
    rw [Int.natAbs_mul, Int.natAbs_natCast, Nat.cast_mul, Nat.cast_one, div_one,
      mul_div_cancel_right₀ _ cast_unitsPerOne_ne_zero]
  have hpos : (0 : Int) < unitsPerOne := by exact_mod_cast unitsPerOne_pos
  have hsign : decide (k * unitsPerOne < 0) = decide (k < 0) := by
    rw [decide_eq_decide]
    exact ⟨fun h => neg_of_mul_neg_left h hpos.le, fun h => mul_neg_of_neg_of_pos h hpos⟩
  have hbound : ((k * unitsPerOne).natAbs : ℚ) / (1 : Nat) / unitsPerOne < overflowBound := by
    rwa [hunits, Nat.cast_natAbs, Int.cast_abs]
  have hround := isRounding_round (k < 0) Nat.one_pos hbound
  rw [hunits, signed_natAbs] at hround
  unfold ofInt roundUnits
  rw [hsign]
  exact hround

/-- **A quotient is rounded.** -/
theorem isRounding_div (hx : x.toRat? = some p) (hy : y.toRat? = some q) (hq : q ≠ 0)
    (h : |p / q| < overflowBound) : (x / y).IsRounding (p / q) := by
  cases x with
  | nan | infinite => cases hx
  | finite s m =>
    cases y with
    | nan | infinite => cases hy
    | finite t n =>
      cases hx
      cases hy
      have hunits : ((m.units * unitsPerOne : Nat) : ℚ) / n.units / unitsPerOne =
          m.toRat / n.toRat := by
        rw [toRat, toRat, Nat.cast_mul, div_div_div_cancel_right₀ cast_unitsPerOne_ne_zero,
          div_right_comm, mul_div_cancel_right₀ _ cast_unitsPerOne_ne_zero]
      have hn : n.units ≠ 0 := by
        intro hzero
        exact hq (by rw [signed_eq_zero_iff, toRat, hzero, Nat.cast_zero, zero_div])
      have hdiv : (finite s m / finite t n : Binary64) =
          round (s ^^ t) (m.units * unitsPerOne) n.units := if_neg hn
      rw [signed_div_signed] at h ⊢
      rw [abs_signed _ (div_nonneg (toRat_nonneg m) (toRat_nonneg n)), ← hunits] at h
      rw [hdiv, ← hunits]
      exact isRounding_round _ (Nat.pos_of_ne_zero hn) h

/-! ### Integers as reals -/

/-- What is known of the value of an integer as a real. It is in the range of the integers, it is
zero for zero only, and it is the integer itself if that has no more than 53 bits. -/
structure Promotes (k : Integer) (v : ℚ) : Prop where
  abs_le : |v| ≤ 2 ^ 63
  one_le_abs : k.toInt ≠ 0 → 1 ≤ |v|
  eq_of_abs_le : |k.toInt| ≤ 2 ^ 53 → v = k.toInt

theorem Promotes.eq_zero_iff {k : Integer} (h : Promotes k v) : v = 0 ↔ k.toInt = 0 := by
  constructor
  · rintro rfl
    refine Classical.byContradiction fun hk => ?_
    have hone := h.one_le_abs hk
    rw [abs_zero] at hone
    linarith
  · intro hk
    rw [h.eq_of_abs_le (by rw [hk]; decide), hk, Int.cast_zero]

/-- **What rounding leaves of an integer.** -/
theorem exists_promotes (k : Integer) :
    ∃ v, (ofInt k.toInt).IsRounding k.toInt ∧ (ofInt k.toInt).toRat? = some v ∧ Promotes k v := by
  obtain ⟨one, hone⟩ := exists_toRat_eq_two_zpow (k := 0) (by decide) (by decide)
  obtain ⟨upper, hupper⟩ := exists_toRat_eq_two_zpow (k := 63) (by decide) (by decide)
  rw [zpow_zero] at hone
  rw [zpow_ofNat] at hupper
  have hround : (ofInt k.toInt).IsRounding k.toInt := by
    refine isRounding_ofInt (lt_of_le_of_lt ?_ upper.toRat_lt_overflowBound)
    rw [hupper]
    exact k.abs_toInt_le
  obtain ⟨v, hv⟩ := hround.exists_toRat?
  refine ⟨v, hround, hv, ?_, fun hk => ?_, hround.eq_intCast hv⟩
  · rw [← hupper]
    refine hround.abs_le hv ?_
    rw [hupper]
    exact k.abs_toInt_le
  · rw [← hone]
    refine hround.le_abs hv ?_
    rw [hone]
    exact_mod_cast Int.one_le_abs hk

/-- Where the dividend is not rounded and the divisor divides it, the quotient is an integer. -/
theorem Promotes.div_eq {a b : Integer} {u : ℚ} (hu : Promotes a u) (hv : Promotes b v)
    (hb : b.toInt ≠ 0) (ha : |a.toInt| ≤ 2 ^ 53) (hdvd : b.toInt ∣ a.toInt) :
    u / v = (a.toInt / b.toInt : Int) := by
  rw [hu.eq_of_abs_le ha]
  by_cases hzero : a.toInt = 0
  · rw [hzero, Int.cast_zero, zero_div, Int.zero_ediv, Int.cast_zero]
  · have hle : |b.toInt| ≤ |a.toInt| :=
      Int.le_of_dvd (abs_pos.mpr hzero) ((abs_dvd_abs _ _).mpr hdvd)
    rw [hv.eq_of_abs_le (hle.trans ha), Int.cast_div hdvd (by exact_mod_cast hb)]

/-- **The quotient of two integers as reals.** -/
theorem Promotes.exists_div {a b : Integer} {u : ℚ} (hu : Promotes a u) (hv : Promotes b v)
    (hx : x.toRat? = some u) (hy : y.toRat? = some v) (hb : b.toInt ≠ 0) :
    ∃ q, (x / y).IsRounding (u / v) ∧ (x / y).toRat? = some q ∧ (q = 0 ↔ a.toInt = 0) ∧
      (|a.toInt| ≤ 2 ^ 53 → b.toInt ∣ a.toInt → q = (a.toInt / b.toInt : Int)) := by
  obtain ⟨lower, hlower⟩ := exists_toRat_eq_two_zpow (k := -63) (by decide) (by decide)
  obtain ⟨upper, hupper⟩ := exists_toRat_eq_two_zpow (k := 63) (by decide) (by decide)
  rw [zpow_neg, zpow_ofNat] at hlower
  rw [zpow_ofNat] at hupper
  have hpos : 0 < |v| := lt_of_lt_of_le one_pos (hv.one_le_abs hb)
  have hround : (x / y).IsRounding (u / v) := by
    refine isRounding_div hx hy (abs_pos.mp hpos) (lt_of_le_of_lt ?_ upper.toRat_lt_overflowBound)
    rw [hupper, abs_div, div_le_iff₀ hpos]
    exact hu.abs_le.trans (le_mul_of_one_le_right (by positivity) (hv.one_le_abs hb))
  obtain ⟨q, hq⟩ := hround.exists_toRat?
  refine ⟨q, hround, hq, ⟨fun hzero => ?_, fun hzero => ?_⟩, fun ha hdvd => ?_⟩
  · -- a dividend other than zero gives a quotient that is at least the lower bound
    refine Classical.byContradiction fun ha => ?_
    have hle : lower.toRat ≤ |u / v| := by
      rw [hlower, abs_div, le_div_iff₀ hpos, inv_mul_le_iff₀ (by positivity)]
      exact hv.abs_le.trans (le_mul_of_one_le_right (by positivity) (hu.one_le_abs ha))
    have hbelow := hround.le_abs hq hle
    rw [hlower, hzero, abs_zero] at hbelow
    exact absurd hbelow (not_le.mpr (by positivity))
  · rw [hu.eq_zero_iff.mpr hzero, zero_div] at hround
    exact hround.eq hq (n := .zero) (by rw [toRat_zero, abs_zero])
  · rw [hu.div_eq hv hb ha hdvd] at hround
    have hle : |a.toInt / b.toInt| ≤ 2 ^ 53 := by
      refine le_trans ?_ ha
      rw [Int.abs_eq_natAbs, Int.abs_eq_natAbs]
      exact_mod_cast Int.natAbs_ediv_le_natAbs a.toInt b.toInt
    exact hround.eq_intCast hq hle

end Binary64

/-! ### Division -/

/-- **Division of integers.** It fails for the divisor zero, and for no other. Otherwise the
quotient of the operands, each rounded, is rounded to a finite number. It is zero for the dividend
zero, and for no other. If there is nothing to round in the dividend and the divisor divides it, the
number is the integer quotient. -/
theorem Operator.apply_div_integers (a b : Integer) (p : Nat) :
    (Operator.div.apply (.integer a) (.integer b) p = .error (.divisionByZero p) ↔ b.toInt = 0) ∧
    (b.toInt ≠ 0 → ∃ r q, Operator.div.apply (.integer a) (.integer b) p = .ok (.real r) ∧
      (∃ x y u v, Binary64.IsRounding x a.toInt ∧ x.toRat? = some u ∧
        Binary64.IsRounding y b.toInt ∧ y.toRat? = some v ∧ r.IsRounding (u / v)) ∧
      r.toRat? = some q ∧ (q = 0 ↔ a.toInt = 0) ∧
      (|a.toInt| ≤ 2 ^ 53 → b.toInt ∣ a.toInt → q = (a.toInt / b.toInt : Int))) := by
  obtain ⟨u, hroundx, hx, hu⟩ := Binary64.exists_promotes a
  obtain ⟨v, hroundy, hy, hv⟩ := Binary64.exists_promotes b
  have hzero : (Binary64.ofInt b.toInt).isZero = true ↔ b.toInt = 0 :=
    (Binary64.isZero_iff hy).trans hv.eq_zero_iff
  have happly : Operator.div.apply (.integer a) (.integer b) p =
      if (Binary64.ofInt b.toInt).isZero then .error (.divisionByZero p)
      else .ok (.real (.ofInt a.toInt / .ofInt b.toInt)) := rfl
  refine ⟨?_, fun hb => ?_⟩
  · rw [happly, ← hzero]
    split
    · next h => exact iff_of_true rfl h
    · next h => exact iff_of_false nofun h
  · obtain ⟨q, hround, hq, hiff, hexact⟩ := hu.exists_div hv hx hy hb
    rw [if_neg (mt hzero.mp hb)] at happly
    exact ⟨_, q, happly, ⟨_, _, u, v, hroundx, hx, hroundy, hy, hround⟩, hq, hiff, hexact⟩

end Calculator
