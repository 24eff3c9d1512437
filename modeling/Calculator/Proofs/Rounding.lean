import Calculator.Binary64.Magnitude
import Mathlib.Algebra.Order.Field.Basic
import Mathlib.Algebra.Order.Group.Abs
import Mathlib.Data.Rat.Cast.Order
import Mathlib.Tactic.FieldSimp
import Mathlib.Tactic.Linarith
import Mathlib.Tactic.NormNum
import Mathlib.Tactic.Ring

/-!
# Rounding is to the nearest

Rounding is defined by what a machine does: a shift is chosen, a quotient is rounded, and a carry is
put right. Here it is compared with what is wanted of it, which mentions none of these. A magnitude
is the rounding of a rational number when no magnitude is nearer to it, and when of two that are
equally near it is the one with the even significand. Beyond the largest magnitude there is nothing
to be nearest to, and a bound is given instead: it is halfway between the largest magnitude and
what would be the next one.

Everything is first shown for a quotient of units. The magnitudes with at least the chosen shift are
among the multiples of a power of two, and of these the rounded quotient is the nearest one; those
with a smaller shift lie below all of them.

## Main definitions

* `Magnitude.toRat`: a magnitude as a rational number.
* `Magnitude.overflowBound`: the numbers from here on are too large.
* `Magnitude.IsNearest`: a magnitude is the rounding of a rational number.

## Main results

* `roundQuotient_nearest`: rounding to a natural number.
* `Magnitude.units_injective`: each magnitude has one form only.
* `Magnitude.nearest?_eq_some_iff`, `Magnitude.nearest?_eq_none_iff`: rounding to a magnitude.
* `Magnitude.IsNearest.unique`: a number has one rounding only.
* `Magnitude.IsNearest.toRat_le`, `Magnitude.IsNearest.le_toRat`: rounding does not go past a
  magnitude.
-/

namespace Calculator

open scoped Powers

/-! ### Rounding to a natural number -/

section Quotient

variable {num den : Nat}

/-- A quotient is its whole part and the remainder over the divisor. -/
theorem natCast_div_eq (hden : 0 < den) :
    (num : ℚ) / den = (num / den : Nat) + (num % den : Nat) / den := by
  have hpos : (den : ℚ) ≠ 0 := by positivity
  have hsum : (num : ℚ) = den * (num / den : Nat) + (num % den : Nat) := by
    exact_mod_cast (Nat.div_add_mod num den).symm
  field_simp
  linarith

/-- A natural number is at most a quotient when it is at most the whole part. -/
theorem natCast_le_div_iff {k : Nat} (hden : 0 < den) : (k : ℚ) ≤ num / den ↔ k ≤ num / den := by
  rw [le_div_iff₀ (by exact_mod_cast hden), Nat.le_div_iff_mul_le hden]
  exact_mod_cast Iff.rfl

/-- The rounded quotient is at most one half away from the quotient, and it is even if it is
exactly one half away. -/
theorem abs_roundQuotient_sub (num : Nat) (hden : 0 < den) :
    |(roundQuotient num den : ℚ) - num / den| ≤ 1 / 2 ∧
      (|(roundQuotient num den : ℚ) - num / den| = 1 / 2 → Even (roundQuotient num den)) := by
  have hpos : (0 : ℚ) < den := by exact_mod_cast hden
  have hrest : (0 : ℚ) ≤ (num % den : Nat) / den := by positivity
  have hlt : ((num % den : Nat) : ℚ) / den < 1 :=
    (div_lt_one hpos).mpr (by exact_mod_cast Nat.mod_lt num hden)
  rw [natCast_div_eq hden, roundQuotient]
  split <;> rename_i hcompare
  · have hhalf : ((num % den : Nat) : ℚ) / den < 1 / 2 := by
      rw [div_lt_iff₀ hpos]
      have hmod : (2 * (num % den : Nat) : ℚ) < den := by
        exact_mod_cast Nat.compare_eq_lt.mp hcompare
      linarith
    rw [sub_add_cancel_left, abs_neg, abs_of_nonneg hrest]
    exact ⟨hhalf.le, fun h => absurd h hhalf.ne⟩
  · have hhalf : ((num % den : Nat) : ℚ) / den = 1 / 2 := by
      rw [div_eq_iff hpos.ne']
      have hmod : (2 * (num % den : Nat) : ℚ) = den := by
        exact_mod_cast Nat.compare_eq_eq.mp hcompare
      linarith
    rw [hhalf]
    rcases Nat.mod_two_eq_zero_or_one (num / den) with hparity | hparity
    · rw [hparity, Nat.add_zero, sub_add_cancel_left, abs_neg, abs_of_pos (by norm_num)]
      exact ⟨le_rfl, fun _ => Nat.even_iff.mpr hparity⟩
    · rw [hparity, Nat.cast_add, Nat.cast_one, add_sub_add_left_eq_sub]
      refine ⟨by norm_num, fun _ => Nat.even_iff.mpr ?_⟩
      omega
  · have hhalf : 1 / 2 < ((num % den : Nat) : ℚ) / den := by
      rw [lt_div_iff₀ hpos]
      have hmod : (den : ℚ) < 2 * (num % den : Nat) := by
        exact_mod_cast Nat.compare_eq_gt.mp hcompare
      linarith
    rw [Nat.cast_add, Nat.cast_one, add_sub_add_left_eq_sub, abs_of_pos (by linarith)]
    exact ⟨by linarith, fun h => absurd h (by linarith)⟩

/-- **No natural number is nearer to a quotient than the rounded one**, and if another one is as
near, then the rounded one is even and the other one is odd. -/
theorem roundQuotient_nearest (num : Nat) (hden : 0 < den) (k : Nat) :
    |(roundQuotient num den : ℚ) - num / den| ≤ |(k : ℚ) - num / den| ∧
      (|(k : ℚ) - num / den| = |(roundQuotient num den : ℚ) - num / den| →
        k ≠ roundQuotient num den → Even (roundQuotient num den) ∧ ¬Even k) := by
  obtain ⟨hle, heven⟩ := abs_roundQuotient_sub num hden
  generalize roundQuotient num den = r at hle heven ⊢
  generalize (num : ℚ) / den = y at hle heven ⊢
  by_cases hkr : k = r
  · subst hkr
    exact ⟨le_rfl, fun _ hne => absurd rfl hne⟩
  · have hapart : (1 : ℚ) ≤ |(k : ℚ) - r| := by
      exact_mod_cast Int.one_le_abs (sub_ne_zero.mpr (Nat.cast_injective.ne hkr : (k : ℤ) ≠ r))
    have htriangle := abs_sub_le (k : ℚ) y r
    rw [abs_sub_comm y] at htriangle
    refine ⟨by linarith, fun htie _ => ?_⟩
    have hhalf : |(r : ℚ) - y| = 1 / 2 := by linarith
    have hone : |(k : ℚ) - r| ≤ 1 := by linarith
    have hdist : |(k : ℤ) - r| ≤ 1 := by exact_mod_cast hone
    have hr := heven hhalf
    rw [Nat.even_iff] at hr
    rw [Nat.even_iff, Nat.even_iff]
    refine ⟨hr, ?_⟩
    have hbounds := abs_le.mp hdist
    omega

end Quotient

/-! ### Magnitudes as rational numbers -/

namespace Magnitude

/-- A magnitude with a smaller shift is less than all those of 53 bits with a larger one. -/
theorem units_lt {m : Magnitude} {shift : Nat} (h : m.shift < shift) :
    m.units < 2 ^ 52 * 2 ^ shift :=
  calc m.units < 2 ^ 53 * 2 ^ m.shift :=
        Nat.mul_lt_mul_of_pos_right m.significand_lt (Nat.two_pow_pos _)
    _ = 2 ^ 52 * 2 ^ (m.shift + 1) := by ring
    _ ≤ 2 ^ 52 * 2 ^ shift := Nat.mul_le_mul_left _ (Nat.pow_le_pow_right (by decide) h)

theorem units_lt_of_shift_lt {m n : Magnitude} (h : m.shift < n.shift) : m.units < n.units :=
  (units_lt h).trans_le (Nat.mul_le_mul_right _ (n.normal.resolve_left (by omega)))

/-- **Each magnitude has one form only.** -/
theorem units_injective : Function.Injective units := by
  intro m n h
  rcases Nat.lt_trichotomy m.shift n.shift with hlt | heq | hlt
  · exact absurd h (units_lt_of_shift_lt hlt).ne
  · rw [units, units, heq] at h
    have hsignificand := Nat.eq_of_mul_eq_mul_right (Nat.two_pow_pos _) h
    cases m
    cases n
    cases heq
    cases hsignificand
    rfl
  · exact absurd h (units_lt_of_shift_lt hlt).ne'

/-- A magnitude as a rational number. -/
def toRat (m : Magnitude) : ℚ := m.units / unitsPerOne

/-- The numbers that are too large begin halfway between the largest magnitude, which is
`2 ^ 1024 - 2 ^ 971`, and `2 ^ 1024`. -/
def overflowBound : ℚ := 2 ^ 1024 - 2 ^ 970

/-- The magnitude is the rounding of a number: no magnitude is nearer to the number, and if another
one is as near, then this one has an even significand. -/
structure IsNearest (m : Magnitude) (q : ℚ) : Prop where
  lt : q < overflowBound
  le : ∀ n : Magnitude, |m.toRat - q| ≤ |n.toRat - q|
  even : ∀ n : Magnitude, |n.toRat - q| = |m.toRat - q| → n ≠ m → Even m.significand

theorem cast_unitsPerOne_pos : (0 : ℚ) < unitsPerOne := Nat.cast_pos.mpr unitsPerOne_pos

theorem cast_unitsPerOne_ne_zero : (unitsPerOne : ℚ) ≠ 0 := cast_unitsPerOne_pos.ne'

theorem toRat_injective : Function.Injective toRat := by
  intro m n h
  rw [toRat, toRat, div_left_inj' cast_unitsPerOne_ne_zero] at h
  exact units_injective (by exact_mod_cast h)

@[simp] theorem toRat_zero : zero.toRat = 0 := by
  rw [toRat, units_zero, Nat.cast_zero, zero_div]

theorem toRat_nonneg (m : Magnitude) : 0 ≤ m.toRat := by
  rw [toRat]
  positivity

/-- The distance of a magnitude from a number of units. -/
theorem abs_toRat_sub (m : Magnitude) (x : ℚ) :
    |m.toRat - x / unitsPerOne| = |(m.units : ℚ) - x| / unitsPerOne := by
  rw [toRat, ← sub_div, abs_div, Nat.abs_cast]

/-! ### Rounding to a magnitude -/

section Nearest

variable {num den shift : Nat}

theorem div_mul_two_pow (num den shift : Nat) :
    (num : ℚ) / (den * 2 ^ shift : Nat) * 2 ^ shift = num / den := by
  rw [Nat.cast_mul, Nat.cast_pow, Nat.cast_ofNat, ← div_div, div_mul_cancel₀ _ (by positivity)]

/-- The distance of a multiple of a power of two from a quotient. -/
theorem abs_mul_two_pow_sub (k : Nat) :
    |((k * 2 ^ shift : Nat) : ℚ) - num / den| =
      |(k : ℚ) - num / (den * 2 ^ shift : Nat)| * 2 ^ shift := by
  have hpos : (0 : ℚ) < 2 ^ shift := by positivity
  rw [← div_mul_two_pow num den shift, Nat.cast_mul, Nat.cast_pow, Nat.cast_ofNat, ← sub_mul,
    abs_mul, abs_of_pos hpos]

/-- **No magnitude is nearer to a quotient than the rounded multiple of a power of two**, and if
another one is as near, then the multiple is even and the other significand is odd. The power of two
has to be such that there are 53 bits. -/
theorem roundQuotient_mul_nearest {r : Nat} (hr : roundQuotient num (den * 2 ^ shift) = r)
    (hden : 0 < den) (hshift : shift = 0 ∨ 2 ^ 52 ≤ num / (den * 2 ^ shift)) (n : Magnitude) :
    |((r * 2 ^ shift : Nat) : ℚ) - num / den| ≤ |(n.units : ℚ) - num / den| ∧
      (|(n.units : ℚ) - num / den| = |((r * 2 ^ shift : Nat) : ℚ) - num / den| →
        n.units ≠ r * 2 ^ shift → Even r ∧ ¬Even n.significand) := by
  subst hr
  have hpos : (0 : ℚ) < 2 ^ shift := by positivity
  have hscaled : 0 < den * 2 ^ shift := Nat.mul_pos hden (Nat.two_pow_pos _)
  have hnearest := roundQuotient_nearest num hscaled
  rcases Nat.lt_or_ge n.shift shift with hlt | hge
  · -- below all multiples with 53 bits, hence farther away than the least of them
    have hunits : (n.units : ℚ) < (2 ^ 52 * 2 ^ shift : Nat) := by exact_mod_cast units_lt hlt
    have hbelow : ((2 ^ 52 * 2 ^ shift : Nat) : ℚ) ≤ num / den := by
      rw [natCast_le_div_iff hden, ← Nat.le_div_iff_mul_le (Nat.two_pow_pos shift),
        Nat.div_div_eq_div_mul]
      exact hshift.resolve_left (by omega)
    have hleast := mul_le_mul_of_nonneg_right (hnearest (2 ^ 52)).1 hpos.le
    rw [← abs_mul_two_pow_sub, ← abs_mul_two_pow_sub, abs_of_nonpos (sub_nonpos.mpr hbelow)]
      at hleast
    generalize ((2 ^ 52 * 2 ^ shift : Nat) : ℚ) = least at hunits hbelow hleast
    rw [abs_of_nonpos (a := (n.units : ℚ) - _) (by linarith)]
    exact ⟨by linarith, fun h => absurd h (by linarith)⟩
  · obtain ⟨j, hj⟩ := Nat.exists_eq_add_of_le hge
    have hunits : n.units = n.significand * 2 ^ j * 2 ^ shift := by
      rw [units, hj, Nat.pow_add]
      ring
    obtain ⟨hle, htie⟩ := hnearest (n.significand * 2 ^ j)
    rw [hunits, abs_mul_two_pow_sub, abs_mul_two_pow_sub]
    refine ⟨mul_le_mul_of_nonneg_right hle hpos.le, fun heq hne => ?_⟩
    obtain ⟨heven, hodd⟩ := htie (mul_right_cancel₀ hpos.ne' heq) fun h => hne (by rw [h])
    exact ⟨heven, fun h => hodd (h.mul_right _)⟩

theorem ofScaled?_eq_none_iff {r : Nat} {le : r ≤ 2 ^ 53} {normal : shift = 0 ∨ 2 ^ 52 ≤ r} :
    ofScaled? r shift le normal = none ↔ 2045 < shift ∨ shift = 2045 ∧ r = 2 ^ 53 := by
  rw [ofScaled?]
  split <;> split <;> simp only [reduceCtorEq, true_iff, false_iff] <;> omega

/-- A carry is put right without a change of the value, or of its being even. -/
theorem units_of_ofScaled? {r : Nat} {le : r ≤ 2 ^ 53} {normal : shift = 0 ∨ 2 ^ 52 ≤ r}
    {m : Magnitude} (h : ofScaled? r shift le normal = some m) :
    m.units = r * 2 ^ shift ∧ (Even r → Even m.significand) := by
  rw [ofScaled?] at h
  split at h <;> split at h <;> cases h
  · rename_i hcarry _
    rw [hcarry]
    exact ⟨by rw [units]; ring, fun _ => ⟨2 ^ 51, rfl⟩⟩
  · exact ⟨rfl, id⟩

/-- The bound in units: as a significand, half of the last bit above the largest one. -/
theorem overflowBound_mul : overflowBound * unitsPerOne = (2 ^ 54 - 1) * 2 ^ 2044 := by
  have htop : 1024 + unitExponent = 54 + 2044 := rfl
  have hlast : 970 + unitExponent = 2044 := rfl
  rw [overflowBound, unitsPerOne, Nat.cast_pow, Nat.cast_ofNat, sub_mul, ← pow_add, ← pow_add,
    htop, hlast, pow_add, sub_mul, one_mul]

/-- A quotient is rounded up to a power of two from one half below it on. -/
theorem roundQuotient_eq_two_pow_iff {k : Nat} (hden : 0 < den) (hlt : num / den < 2 ^ (k + 1)) :
    roundQuotient num den = 2 ^ (k + 1) ↔ (2 ^ (k + 1) : ℚ) - 1 / 2 ≤ num / den := by
  obtain ⟨hle, heven⟩ := abs_roundQuotient_sub num hden
  have hbound := (roundQuotient_le_div_succ num den).trans hlt
  generalize roundQuotient num den = r at hle heven hbound ⊢
  generalize (num : ℚ) / den = y at hle heven ⊢
  obtain ⟨hlower, hupper⟩ := abs_le.mp hle
  constructor
  · rintro rfl
    rw [Nat.cast_pow, Nat.cast_ofNat] at hupper
    linarith
  · intro hy
    -- the number before the power of two is odd
    refine Classical.byContradiction fun hne => ?_
    have hr : (r : ℚ) + 1 ≤ 2 ^ (k + 1) := by exact_mod_cast Nat.lt_of_le_of_ne hbound hne
    have htie : |(r : ℚ) - y| = 1 / 2 := by
      rw [abs_of_nonpos (by linarith)]
      linarith
    have hodd : (r : ℚ) + 1 = 2 ^ (k + 1) := by linarith
    have hpower : r + 1 = 2 * 2 ^ k := by
      rw [← pow_succ']
      exact_mod_cast hodd
    have hparity := Nat.even_iff.mp (heven htie)
    omega

/-- With a smaller shift than the largest one nothing is too large. -/
theorem lt_overflowBound_of_shift (hden : 0 < den) (hshift : shift < 2045)
    (h : num / (den * 2 ^ shift) < 2 ^ 53) : (num : ℚ) / den < overflowBound * unitsPerOne := by
  have hquotient : (num : ℚ) / (den * 2 ^ shift : Nat) < 2 ^ 53 := by
    have hle := not_le.mpr h
    rw [← natCast_le_div_iff (Nat.mul_pos hden (Nat.two_pow_pos _)), not_le] at hle
    exact_mod_cast hle
  have hpower : (2 : ℚ) ^ shift ≤ 2 ^ 2044 := pow_le_pow_right₀ (by norm_num) (by omega)
  have hlarge : (0 : ℚ) ≤ 2 ^ 2044 := pow_nonneg (by norm_num) 2044
  rw [← div_mul_two_pow num den shift, overflowBound_mul]
  calc (num : ℚ) / (den * 2 ^ shift : Nat) * 2 ^ shift < 2 ^ 53 * 2 ^ 2044 :=
        mul_lt_mul hquotient hpower (by positivity) (by positivity)
    _ ≤ (2 ^ 54 - 1) * 2 ^ 2044 := mul_le_mul_of_nonneg_right (by norm_num) hlarge

/-- With a larger shift everything is too large. -/
theorem overflowBound_le_of_shift (hden : 0 < den) (hshift : 2045 < shift)
    (h : 2 ^ 52 ≤ num / (den * 2 ^ shift)) : overflowBound * unitsPerOne ≤ (num : ℚ) / den := by
  have hquotient : (2 : ℚ) ^ 52 ≤ num / (den * 2 ^ shift : Nat) := by
    exact_mod_cast (natCast_le_div_iff (Nat.mul_pos hden (Nat.two_pow_pos _))).mpr h
  have hpower : (2 : ℚ) ^ 2 * 2 ^ 2044 ≤ 2 ^ shift := by
    rw [← pow_add]
    exact pow_le_pow_right₀ (by norm_num) hshift
  have hlarge : (0 : ℚ) ≤ 2 ^ 2044 := pow_nonneg (by norm_num) 2044
  rw [← div_mul_two_pow num den shift, overflowBound_mul]
  calc (2 ^ 54 - 1) * (2 : ℚ) ^ 2044 ≤ 2 ^ 52 * 2 ^ 2 * 2 ^ 2044 :=
        mul_le_mul_of_nonneg_right (by norm_num) hlarge
    _ = 2 ^ 52 * (2 ^ 2 * 2 ^ 2044) := mul_assoc _ _ _
    _ ≤ num / (den * 2 ^ shift : Nat) * 2 ^ shift :=
        mul_le_mul hquotient hpower (by positivity) (le_trans (by positivity) hquotient)

/-- With the largest shift, what is rounded up to 54 bits is too large. -/
theorem overflowBound_le_iff (hden : 0 < den) (hshift : shift = 2045)
    (h : num / (den * 2 ^ shift) < 2 ^ 53) :
    overflowBound * unitsPerOne ≤ (num : ℚ) / den ↔
      roundQuotient num (den * 2 ^ shift) = 2 ^ 53 := by
  have hdouble : (2 : ℚ) ^ shift = 2 * 2 ^ 2044 := hshift ▸ pow_succ' 2 2044
  have hlarge : (0 : ℚ) < 2 ^ 2044 := pow_pos (by norm_num) 2044
  rw [roundQuotient_eq_two_pow_iff (Nat.mul_pos hden (Nat.two_pow_pos _)) h,
    ← div_mul_two_pow num den shift, overflowBound_mul, hdouble, ← mul_assoc,
    mul_le_mul_iff_of_pos_right hlarge]
  generalize (num : ℚ) / (den * 2 ^ shift : Nat) = y
  constructor <;> intro h <;> linarith

/-- **What is too large**: there is no nearest magnitude from the bound on. -/
theorem nearest?_eq_none_iff (hden : 0 < den) :
    nearest? num den = none ↔ overflowBound ≤ num / den / unitsPerOne := by
  have hsmall := div_shiftOf_lt (num / den)
  have hlarge := shiftOf_eq_zero_or (num / den)
  rw [nearest?, ofScaled?_eq_none_iff, le_div_iff₀ cast_unitsPerOne_pos]
  generalize shiftOf (num / den) = shift at hsmall hlarge ⊢
  rw [Nat.div_div_eq_div_mul] at hsmall hlarge
  rcases Nat.lt_trichotomy shift 2045 with hlt | heq | hgt
  · exact iff_of_false (by omega) (not_le.mpr (lt_overflowBound_of_shift hden hlt hsmall))
  · rw [overflowBound_le_iff hden heq hsmall, or_iff_right heq.not_gt, and_iff_right heq]
  · exact iff_of_true (.inl hgt)
      (overflowBound_le_of_shift hden hgt (hlarge.resolve_left (by omega)))

/-- What rounding computes is the rounding, and no other magnitude is. -/
theorem eq_of_nearest? {m : Magnitude} (hden : 0 < den) (h : nearest? num den = some m) :
    m.IsNearest (num / den / unitsPerOne) ∧
      ∀ n : Magnitude, n.IsNearest (num / den / unitsPerOne) → n = m := by
  have hpos := cast_unitsPerOne_pos
  have hlt : (num : ℚ) / den / unitsPerOne < overflowBound := by
    rw [← not_le, ← nearest?_eq_none_iff hden, h]
    exact nofun
  have hlarge := shiftOf_eq_zero_or (num / den)
  rw [Nat.div_div_eq_div_mul] at hlarge
  have hnearest := roundQuotient_mul_nearest rfl hden hlarge
  rw [nearest?] at h
  obtain ⟨hunits, heven⟩ := units_of_ofScaled? h
  rw [← hunits] at hnearest
  have hdistance : ∀ n : Magnitude, |m.toRat - num / den / unitsPerOne| ≤
      |n.toRat - num / den / unitsPerOne| := by
    intro n
    rw [abs_toRat_sub, abs_toRat_sub, div_le_div_iff_of_pos_right hpos]
    exact (hnearest n).1
  have htie : ∀ n : Magnitude, |n.toRat - num / den / unitsPerOne| =
      |m.toRat - num / den / unitsPerOne| → n ≠ m → Even m.significand ∧ ¬Even n.significand := by
    intro n heq hne
    rw [abs_toRat_sub, abs_toRat_sub, div_left_inj' hpos.ne'] at heq
    obtain ⟨hr, hodd⟩ := (hnearest n).2 heq (units_injective.ne hne)
    exact ⟨heven hr, hodd⟩
  refine ⟨⟨hlt, hdistance, fun n heq hne => (htie n heq hne).1⟩, fun n hn => ?_⟩
  refine Classical.byContradiction fun hne => ?_
  have heq := le_antisymm (hn.le m) (hdistance n)
  exact (htie n heq hne).2 (hn.even m heq.symm (Ne.symm hne))

/-- **Rounding gives the nearest magnitude.** -/
theorem nearest?_eq_some_iff (hden : 0 < den) {m : Magnitude} :
    nearest? num den = some m ↔ m.IsNearest (num / den / unitsPerOne) := by
  constructor
  · exact fun h => (eq_of_nearest? hden h).1
  · intro h
    cases hnearest : nearest? num den with
    | none => exact absurd h.lt (not_lt.mpr ((nearest?_eq_none_iff hden).mp hnearest))
    | some n => rw [(eq_of_nearest? hden hnearest).2 m h]

end Nearest

/-! ### Properties of rounding -/

/-- Every number that is not negative is a quotient of units. -/
theorem exists_quotient_eq {q : ℚ} (hq : 0 ≤ q) :
    ∃ num den : Nat, 0 < den ∧ q = num / den / unitsPerOne := by
  obtain ⟨num, hnum⟩ := Int.eq_ofNat_of_zero_le (Rat.num_nonneg.mpr hq)
  have hcast : (num : ℚ) = q.num := by rw [hnum, Int.cast_natCast]
  refine ⟨num * unitsPerOne, q.den, q.den_pos, ?_⟩
  rw [Nat.cast_mul, div_right_comm, mul_div_cancel_right₀ _ cast_unitsPerOne_ne_zero, hcast,
    Rat.num_div_den]

/-- **A number has one rounding only.** -/
theorem IsNearest.unique {m n : Magnitude} {q : ℚ} (hq : 0 ≤ q) (hm : m.IsNearest q)
    (hn : n.IsNearest q) : m = n := by
  obtain ⟨num, den, hden, rfl⟩ := exists_quotient_eq hq
  rw [← nearest?_eq_some_iff hden] at hm hn
  exact Option.some.inj (hm.symm.trans hn)

/-- **Rounding up does not go past a magnitude.** -/
theorem IsNearest.toRat_le {m n : Magnitude} {q : ℚ} (h : m.IsNearest q) (hn : q ≤ n.toRat) :
    m.toRat ≤ n.toRat := by
  refine le_of_not_gt fun hlt => ?_
  have hnearer := h.le n
  rw [abs_of_nonneg (by linarith), abs_of_nonneg (by linarith)] at hnearer
  linarith

/-- **Rounding down does not go past a magnitude.** -/
theorem IsNearest.le_toRat {m n : Magnitude} {q : ℚ} (h : m.IsNearest q) (hn : n.toRat ≤ q) :
    n.toRat ≤ m.toRat := by
  refine le_of_not_gt fun hlt => ?_
  have hnearer := h.le n
  rw [abs_of_nonpos (by linarith), abs_of_nonpos (by linarith)] at hnearer
  linarith

/-- **Rounding does not change a magnitude.** -/
theorem IsNearest.toRat_eq {m n : Magnitude} {q : ℚ} (h : m.IsNearest q) (hn : n.toRat = q) :
    m.toRat = q := by
  rw [← hn]
  exact le_antisymm (h.toRat_le hn.ge) (h.le_toRat hn.le)

/-! ### Magnitudes that round to themselves -/

theorem toRat_lt_overflowBound (m : Magnitude) : m.toRat < overflowBound := by
  have hpos := cast_unitsPerOne_pos
  have hdouble : (2 : ℚ) ^ 2045 = 2 * 2 ^ 2044 := pow_succ' 2 2044
  have hpower : (0 : ℚ) < 2 ^ 2044 := pow_pos (by norm_num) 2044
  have hsignificand : (m.significand : ℚ) + 1 ≤ 2 ^ 53 := by exact_mod_cast m.significand_lt
  have hshift : (2 : ℚ) ^ m.shift ≤ 2 ^ 2045 := pow_le_pow_right₀ (by norm_num) m.shift_le
  rw [toRat, div_lt_iff₀ hpos, overflowBound_mul, units, Nat.cast_mul, Nat.cast_pow, Nat.cast_ofNat]
  calc (m.significand : ℚ) * 2 ^ m.shift ≤ m.significand * 2 ^ 2045 :=
        mul_le_mul_of_nonneg_left hshift (Nat.cast_nonneg _)
    _ = 2 * m.significand * 2 ^ 2044 := by rw [hdouble, mul_left_comm, ← mul_assoc]
    _ < (2 ^ 54 - 1) * 2 ^ 2044 := mul_lt_mul_of_pos_right (by linarith) hpower

/-- A magnitude is its own rounding. -/
theorem isNearest_self (m : Magnitude) : m.IsNearest m.toRat where
  lt := m.toRat_lt_overflowBound
  le n := by
    rw [sub_self, abs_zero]
    exact abs_nonneg _
  even n heq hne := by
    rw [sub_self, abs_zero, abs_eq_zero, sub_eq_zero] at heq
    exact absurd (toRat_injective heq) hne

/-- A number of up to 53 bits, shifted, is a magnitude. -/
theorem exists_units_eq {k shift : Nat} (hk : k < 2 ^ 53) (hshift : shift ≤ 2045) :
    ∃ m : Magnitude, m.units = k * 2 ^ shift := by
  induction shift generalizing k with
  | zero => exact ⟨⟨k, 0, hk, hshift, .inl rfl⟩, rfl⟩
  | succ shift ih =>
    by_cases hnormal : 2 ^ 52 ≤ k
    · exact ⟨⟨k, shift + 1, hk, hshift, .inr hnormal⟩, rfl⟩
    · obtain ⟨m, hm⟩ := ih (k := 2 * k) (by omega) (by omega)
      exact ⟨m, by rw [hm]; ring⟩

/-- Powers of two are magnitudes. -/
theorem exists_toRat_eq_two_zpow {k : ℤ} (hge : -unitExponent ≤ k) (hle : k ≤ 971) :
    ∃ m : Magnitude, m.toRat = 2 ^ k := by
  obtain ⟨shift, hshift⟩ := Int.eq_ofNat_of_zero_le (by omega : 0 ≤ k + unitExponent)
  have hbound : shift ≤ 2045 := by
    rw [unitExponent] at hshift
    omega
  obtain ⟨m, hm⟩ := exists_units_eq (k := 1) (by decide) hbound
  refine ⟨m, ?_⟩
  rw [toRat, hm, one_mul, unitsPerOne, Nat.cast_pow, Nat.cast_pow, Nat.cast_ofNat,
    div_eq_iff (by positivity), ← zpow_natCast, ← zpow_natCast, ← zpow_add₀ (by norm_num), hshift]

/-- Natural numbers of up to 53 bits are magnitudes, and so is the next one. -/
theorem exists_toRat_eq_natCast {k : Nat} (hk : k ≤ 2 ^ 53) : ∃ m : Magnitude, m.toRat = k := by
  rcases Nat.lt_or_eq_of_le hk with hlt | rfl
  · obtain ⟨m, hm⟩ := exists_units_eq hlt (by decide : unitExponent ≤ 2045)
    rw [← unitsPerOne] at hm
    exact ⟨m, by rw [toRat, hm, Nat.cast_mul, mul_div_cancel_right₀ _ cast_unitsPerOne_ne_zero]⟩
  · obtain ⟨m, hm⟩ := exists_toRat_eq_two_zpow (k := 53) (by decide) (by decide)
    exact ⟨m, by rw [hm, Nat.cast_pow, Nat.cast_ofNat]; rfl⟩

end Magnitude

end Calculator
