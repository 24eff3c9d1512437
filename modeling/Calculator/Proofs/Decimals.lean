import Calculator.Binary64.Shortest
import Calculator.Proofs.Rounding
import Mathlib.Algebra.Order.Field.Power

/-!
# Decimals that read back

A decimal stands for a rational number, and a magnitude is read from it by rounding. For the
shortest decimal of a magnitude that rounding gives the magnitude back. The search tries a point of
a grid before it is taken, and if it finds none there is the exact value, which is a decimal too.

What a decimal looks like depends on its exponent. A magnitude below one has fractional digits, and
so has any other that is no whole number: numbers without them that could be read as the magnitude
are magnitudes themselves as far as `2 ^ 53`, and from there on all magnitudes are whole.

## Main definitions

* `Decimal.toRat`: a decimal as a rational number.
* `Magnitude.IsIntegral`, `Magnitude.IsExtreme`: whole numbers, and very small and very large ones.

## Main results

* `Magnitude.ofDecimal?_eq_some_iff`: reading a decimal is rounding it.
* `Magnitude.isNearest_shortest`: the shortest decimal reads back.
* `Magnitude.exponent_shortest_neg`: what is not whole has fractional digits.
* `Magnitude.usesExponent_iff`, `Magnitude.isExtreme_iff_bounds`: where exponent form is used.
-/

namespace Calculator

open scoped Powers

namespace Decimal

/-- A decimal as a rational number. -/
def toRat (d : Decimal) : ℚ := d.coefficient * 10 ^ d.exponent

theorem toRat_nonneg (d : Decimal) : 0 ≤ d.toRat := by
  rw [toRat]
  positivity

/-- A decimal whose exponent is not negative is a whole number. -/
theorem toRat_of_nonneg {d : Decimal} (h : 0 ≤ d.exponent) :
    d.toRat = (d.coefficient * 10 ^ d.exponent.toNat : Nat) := by
  obtain ⟨k, hk⟩ := Int.eq_ofNat_of_zero_le h
  rw [toRat, hk, Int.toNat_natCast, zpow_natCast, Nat.cast_mul, Nat.cast_pow, Nat.cast_ofNat]

/-- Otherwise it is a quotient by a power of ten. -/
theorem toRat_of_nonpos {d : Decimal} (h : d.exponent ≤ 0) :
    d.toRat = d.coefficient / (10 ^ (-d.exponent).toNat : Nat) := by
  obtain ⟨k, hk⟩ := Int.eq_ofNat_of_zero_le (Int.neg_nonneg_of_nonpos h)
  have hexponent : d.exponent = -(k : ℤ) := by omega
  rw [toRat, hk, Int.toNat_natCast, hexponent, zpow_neg, zpow_natCast, Nat.cast_pow,
    Nat.cast_ofNat, div_eq_mul_inv]

/-- Without its trailing zeros a decimal is the same number. -/
theorem toRat_trim (d : Decimal) : d.trim.toRat = d.toRat := by
  induction d using trim.induct with
  | case1 d h ih =>
    have hten : (d.coefficient : ℚ) = (d.coefficient / 10 : Nat) * 10 := by
      exact_mod_cast (Nat.div_mul_cancel (Nat.dvd_of_mod_eq_zero h.2)).symm
    rw [trim, dif_pos h, ih, toRat, toRat, zpow_add_one₀ (by norm_num), hten]
    ring
  | case2 d h => rw [trim, dif_neg h]

end Decimal

namespace Magnitude

/-- **Reading a decimal is rounding it.** -/
theorem ofDecimal?_eq_some_iff {d : Decimal} {m : Magnitude} :
    ofDecimal? d = some m ↔ m.IsNearest d.toRat := by
  rw [ofDecimal?, nearest?_eq_some_iff (Nat.pow_pos (by decide)), div_right_comm, Nat.cast_mul,
    mul_div_cancel_right₀ _ cast_unitsPerOne_ne_zero]
  rcases le_total 0 d.exponent with h | h
  · rw [Decimal.toRat_of_nonneg h, Int.toNat_of_nonpos (Int.neg_nonpos_of_nonneg h), Nat.pow_zero,
      Nat.cast_one, div_one]
  · rw [Decimal.toRat_of_nonpos h, Int.toNat_of_nonpos h, Nat.pow_zero, Nat.mul_one]

/-- The exact decimal is exact. -/
theorem toRat_exactDecimal (m : Magnitude) : m.exactDecimal.toRat = m.toRat := by
  have hfive : (5 : ℚ) ^ unitExponent ≠ 0 := pow_ne_zero _ (by norm_num)
  have hten : (10 : ℚ) ^ unitExponent = 5 ^ unitExponent * 2 ^ unitExponent := by
    rw [← mul_pow]
    norm_num only
  rw [exactDecimal, Decimal.toRat, zpow_neg, zpow_natCast, hten, toRat, unitsPerOne, Nat.cast_mul,
    Nat.cast_pow, Nat.cast_pow, Nat.cast_ofNat, Nat.cast_ofNat, ← div_eq_mul_inv, mul_comm (5 ^ _),
    mul_div_mul_right _ _ hfive]

/-- A point of a grid is taken only if it reads back. -/
theorem ofDecimal?_of_onGrid? {m : Magnitude} {exponent : Int} {d : Decimal}
    (h : m.onGrid? exponent = some d) : ofDecimal? d = some m := by
  rw [onGrid?] at h
  split at h
  · next hupper =>
    cases h
    exact hupper.1
  · split at h
    · next hlower =>
      cases h
      exact hlower
    · cases h

/-- **The shortest decimal reads back.** -/
theorem isNearest_shortest (m : Magnitude) : m.IsNearest m.shortest.toRat := by
  rw [shortest, Decimal.toRat_trim]
  cases hfound : (List.range 17).findSome? fun n : Nat => m.onGrid? (m.order - (n + 1 : Nat)) with
  | none =>
    rw [Option.getD_none, toRat_exactDecimal]
    exact m.isNearest_self
  | some d =>
    obtain ⟨n, -, hn⟩ := List.exists_of_findSome?_eq_some hfound
    exact ofDecimal?_eq_some_iff.mp (ofDecimal?_of_onGrid? hn)

/-! ### Whole numbers -/

theorem toRat_eq_natCast_iff {m : Magnitude} {k : Nat} :
    m.toRat = k ↔ m.units = k * unitsPerOne := by
  rw [toRat, div_eq_iff cast_unitsPerOne_ne_zero]
  exact_mod_cast Iff.rfl

/-- A whole number. -/
def IsIntegral (m : Magnitude) : Prop := ∃ k : Nat, m.toRat = k

theorem isWhole_iff {m : Magnitude} : m.isWhole = true ↔ m.IsIntegral := by
  rw [isWhole, decide_eq_true_iff, ← Nat.dvd_iff_mod_eq_zero]
  constructor
  · rintro ⟨k, hk⟩
    exact ⟨k, toRat_eq_natCast_iff.mpr (by rw [hk, Nat.mul_comm])⟩
  · rintro ⟨k, hk⟩
    exact ⟨k, by rw [toRat_eq_natCast_iff.mp hk, Nat.mul_comm]⟩

/-- From `2 ^ 52` on all magnitudes are whole. -/
theorem toRat_lt_of_not_whole {m : Magnitude} (h : m.isWhole = false) : m.toRat < 2 ^ 52 := by
  have hshift : m.shift < unitExponent := by
    refine Nat.lt_of_not_le fun hle => ?_
    obtain ⟨j, hj⟩ := Nat.exists_eq_add_of_le hle
    have hwhole : m.isWhole = true := by
      rw [isWhole, decide_eq_true_iff, units, hj, Nat.pow_add, unitsPerOne, Nat.mul_left_comm]
      exact Nat.mul_mod_right _ _
    rw [h] at hwhole
    cases hwhole
  have hunits := units_lt hshift
  rw [← unitsPerOne] at hunits
  rw [toRat, div_lt_iff₀ cast_unitsPerOne_pos]
  generalize unitsPerOne = one at hunits ⊢
  exact_mod_cast hunits

/-- **What is not whole has fractional digits**, in its shortest decimal too. -/
theorem exponent_shortest_neg {m : Magnitude} (h : m.isWhole = false) :
    m.shortest.exponent < 0 := by
  refine Classical.byContradiction fun hnot => ?_
  have hnearest := m.isNearest_shortest
  rw [Decimal.toRat_of_nonneg (by omega)] at hnearest
  generalize m.shortest.coefficient * 10 ^ m.shortest.exponent.toNat = k at hnearest
  rcases Nat.lt_or_ge k (2 ^ 53) with hk | hk
  · -- a whole number that is a magnitude is read as itself
    obtain ⟨n, hn⟩ := exists_toRat_eq_natCast hk.le
    rw [← Bool.not_eq_true, isWhole_iff] at h
    exact h ⟨k, hnearest.toRat_eq hn⟩
  · -- what is read from one that is larger is too large
    obtain ⟨n, hn⟩ := exists_toRat_eq_natCast (k := 2 ^ 53) le_rfl
    have hsmall := toRat_lt_of_not_whole h
    have hlarge := hnearest.le_toRat (n := n) (by rw [hn]; exact_mod_cast hk)
    rw [hn] at hlarge
    push_cast at hlarge
    linarith

/-! ### Sizes -/

/-- A magnitude that is not zero is read from numbers in this range only. -/
theorem IsNearest.bounds {m : Magnitude} {q : ℚ} (h : m.IsNearest q) (hq : 0 ≤ q)
    (hm : m.toRat ≠ 0) : 1 / (2 * unitsPerOne) ≤ q ∧ q < 2 ^ 1024 := by
  have hpos := cast_unitsPerOne_pos
  have hunits : (1 : ℚ) ≤ m.units := by
    refine Nat.one_le_cast.mpr (Nat.pos_of_ne_zero fun h => hm ?_)
    rw [toRat, h, Nat.cast_zero, zero_div]
  have hleast : 1 / (unitsPerOne : ℚ) ≤ m.toRat := (div_le_div_iff_of_pos_right hpos).mpr hunits
  have hzero := h.le zero
  rw [toRat_zero, zero_sub, abs_neg, abs_of_nonneg hq] at hzero
  have hdistance := le_abs_self (m.toRat - q)
  refine ⟨?_, h.lt.trans (sub_lt_self _ (pow_pos (by norm_num) 970))⟩
  rw [mul_comm, ← div_div]
  linarith

/-- Below `10 ^ -4` or from `10 ^ 16` on, but not zero. -/
def IsExtreme (m : Magnitude) : Prop := m.toRat ≠ 0 ∧ (m.toRat < 1 / 10 ^ 4 ∨ 10 ^ 16 ≤ m.toRat)

theorem usesExponent_iff {m : Magnitude} : m.usesExponent = true ↔ m.IsExtreme := by
  have hpos := cast_unitsPerOne_pos
  rw [usesExponent, decide_eq_true_iff, IsExtreme, toRat]
  generalize unitsPerOne = one at hpos ⊢
  rw [div_ne_zero_iff, and_iff_left hpos.ne', Nat.cast_ne_zero, div_lt_div_iff₀ hpos (by norm_num),
    one_mul, le_div_iff₀ hpos]
  exact_mod_cast Iff.rfl

/-- A magnitude is less than the rounding of a number when it is less than the number, if the number
was rounded up. -/
theorem IsNearest.lt_iff {m n : Magnitude} {q : ℚ} (h : n.IsNearest q) (hle : q ≤ n.toRat) :
    m.toRat < n.toRat ↔ m.toRat < q := by
  refine ⟨fun hlt => ?_, fun hlt => hlt.trans_le hle⟩
  exact lt_of_not_ge fun hge => absurd (h.toRat_le hge) (not_le.mpr hlt)

/-- **The bounds as magnitudes**: comparing with what `1e-4` and `1e16` are read as makes no
difference, although the first of them is not exact. -/
theorem isExtreme_iff_bounds :
    ∃ lower upper : Magnitude, ofDecimal? ⟨1, -4⟩ = some lower ∧ ofDecimal? ⟨1, 16⟩ = some upper ∧
      ∀ m : Magnitude, m.IsExtreme ↔
        m.toRat ≠ 0 ∧ (m.toRat < lower.toRat ∨ upper.toRat ≤ m.toRat) := by
  let lower : Magnitude := ⟨7378697629483821, 1008, by decide, by decide, by decide⟩
  let upper : Magnitude := ⟨5000000000000000, 1075, by decide, by decide, by decide⟩
  have hlower : ofDecimal? ⟨1, -4⟩ = some lower := by decide +kernel
  have hupper : ofDecimal? ⟨1, 16⟩ = some upper := by decide +kernel
  refine ⟨lower, upper, hlower, hupper, fun m => ?_⟩
  have hexact : upper.toRat = 10 ^ 16 := by
    have hunits : upper.units = 10 ^ 16 * unitsPerOne := by decide +kernel
    rw [toRat_eq_natCast_iff.mpr hunits, Nat.cast_pow, Nat.cast_ofNat]
  have hfour : Decimal.toRat ⟨1, -4⟩ = 1 / 10 ^ 4 := by norm_num [Decimal.toRat]
  have hup : 1 / 10 ^ 4 ≤ lower.toRat := by
    have hunits : unitsPerOne ≤ lower.units * 10 ^ 4 := by decide +kernel
    rw [toRat, div_le_div_iff₀ (by norm_num) cast_unitsPerOne_pos, one_mul]
    generalize unitsPerOne = one at hunits ⊢
    exact_mod_cast hunits
  rw [ofDecimal?_eq_some_iff, hfour] at hlower
  rw [IsExtreme, hexact, hlower.lt_iff hup]

end Magnitude

end Calculator
