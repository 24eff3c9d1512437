import Calculator.Proofs.DecimalTexts

/-!
# The formats of reals

The text of a real is put together from three formats that are not made for each other. The plain
one writes the shortest decimal, with a point only where there are decimals. One rounds the exact
value to one decimal. And one has an exponent, whose sign is written only if it is negative; this
exponent is then read again and written with a sign and at least two digits. None of them loses
anything where it is used. The plain one is used for what has decimals, the one that rounds is used
for whole numbers, and an exponent is small enough to be read as a number of 32 bits.

## Main definitions

* `Decimal.plain`, `Decimal.bareScientific`, `Magnitude.oneDecimal`: the formats.
* `Numeral.signExponent`: an exponent with a sign.
* `Magnitude.WrittenInFormats`: how the formats are used.

## Main results

* `Numeral.value?_signExponent`: an exponent with a sign is the same exponent.
* `Magnitude.toList_render_of_extreme`, `Magnitude.toList_render_of_integral` and
  `Magnitude.toList_render_of_not_integral`: the text of a magnitude in terms of the formats.
-/

namespace Calculator

/-! ### Exponents with a sign -/

namespace Numeral

/-- The exponent of a text is written with a sign and at least two digits. A text is left as it is
when it has no exponent, or when that is not a number of 32 bits. -/
def signExponent (cs : List Char) : List Char :=
  match splitOnce? 'e' cs with
  | none => cs
  | some (mantissa, exponent) =>
    match exponent? exponent with
    | none => cs
    | some k =>
      if -2 ^ 31 ≤ k ∧ k < 2 ^ 31 then
        mantissa ++ 'e' :: (if k < 0 then '-' else '+') :: Decimal.paddedDigits 2 k.natAbs
      else cs

/-- **An exponent with a sign is the same exponent.** -/
theorem value?_signExponent (cs : List Char) : value? (signExponent cs) = value? cs := by
  rw [signExponent]
  split
  · rfl
  · next mantissa exponent hsplit =>
    split
    · rfl
    · next k hk =>
      split
      · obtain ⟨rfl, he⟩ := splitOnce?_eq_some_iff.mp hsplit
        simp only [value?, splitOnce?_append he, exponent?_signed, hk]
      · rfl

/-- An exponent with a sign only if it is negative. -/
def bareExponent (k : Int) : List Char :=
  if k < 0 then '-' :: Nat.toDigits 10 k.natAbs else Nat.toDigits 10 k.natAbs

theorem exponent?_bareExponent (k : Int) : exponent? (bareExponent k) = some k := by
  rw [bareExponent]
  split
  · next h =>
    rw [exponent?, natural?_toDigits, Option.map_some, Int.ofNat_natAbs_of_nonpos (by omega),
      Int.neg_neg]
  · next h => rw [exponent?_toDigits, Int.natAbs_of_nonneg (by omega)]

theorem signExponent_append {xs : List Char} {k : Int} (he : 'e' ∉ xs)
    (hk : -2 ^ 31 ≤ k ∧ k < 2 ^ 31) :
    signExponent (xs ++ 'e' :: bareExponent k) =
      xs ++ 'e' :: (if k < 0 then '-' else '+') :: Decimal.paddedDigits 2 k.natAbs := by
  rw [signExponent, splitOnce?_append he]
  simp only [exponent?_bareExponent, if_pos hk]

end Numeral

/-! ### The formats -/

namespace Decimal

/-- Digits, and a point if there are decimals. -/
def plain (d : Decimal) : List Char :=
  if 0 ≤ d.exponent then Nat.toDigits 10 (d.coefficient * 10 ^ d.exponent.toNat)
  else pointed (-d.exponent).toNat d.coefficient

/-- One digit, a point and the other digits if there are any, and an exponent. -/
def bareScientific (d : Decimal) : List Char :=
  d.mantissa ++ 'e' :: Numeral.bareExponent (d.exponent + d.places)

/-- With a sign for its exponent this is exponent form. -/
theorem signExponent_bareScientific {d : Decimal}
    (h : -2 ^ 31 ≤ d.exponent + d.places ∧ d.exponent + d.places < 2 ^ 31) :
    Numeral.signExponent d.bareScientific = d.scientific.toList := by
  rw [bareScientific, Numeral.signExponent_append d.e_notMem_mantissa h, toList_scientific,
    toList_exponentText]

theorem value?_bareScientific (d : Decimal) : Numeral.value? d.bareScientific = some d.toRat := by
  rw [bareScientific, Numeral.value?_append_exponent d.e_notMem_mantissa d.mantissa?_mantissa
    (Numeral.exponent?_bareExponent _), mantissa_mul_zpow]

/-- The exponent is that of the first digit. -/
theorem toRat_bounds {d : Decimal} (h : d.coefficient ≠ 0) :
    10 ^ (d.exponent + d.places) ≤ d.toRat ∧ d.toRat < 10 ^ (d.exponent + d.places + 1) := by
  have hlength : (Nat.toDigits 10 d.coefficient).length = d.places + 1 :=
    (Nat.sub_add_cancel Nat.length_toDigits_pos).symm
  have hlower : 10 ^ d.places ≤ d.coefficient := by
    refine Nat.le_of_not_lt fun hlt => ?_
    rcases Nat.eq_zero_or_pos d.places with hzero | hpos
    · rw [hzero] at hlt
      omega
    · have hle := (Nat.length_toDigits_le_iff (by decide) hpos).mpr hlt
      omega
  have hupper : d.coefficient < 10 ^ d.places * 10 :=
    (Nat.length_toDigits_le_iff (by decide) d.places.succ_pos).mp hlength.le
  have hpower : (0 : ℚ) < 10 ^ (d.exponent + d.places) := by positivity
  have hscale : (0 : ℚ) < (10 ^ d.places : Nat) := by positivity
  rw [← mantissa_mul_zpow, zpow_add_one₀ (by norm_num), mul_comm _ (10 : ℚ)]
  refine ⟨le_mul_of_one_le_left hpower.le ?_, mul_lt_mul_of_pos_right ?_ hpower⟩
  · rw [one_le_div hscale]
    exact_mod_cast hlower
  · rw [div_lt_iff₀ hscale, mul_comm]
    exact_mod_cast hupper

end Decimal

namespace Magnitude

/-- The exact value, rounded to one decimal. -/
def oneDecimal (m : Magnitude) : List Char := pointed 1 (roundQuotient (m.units * 10) unitsPerOne)

variable {m : Magnitude}

/-- The exponent of a magnitude is a small number. -/
theorem exponent_bounds (hm : m.toRat ≠ 0) :
    -2 ^ 31 ≤ m.shortest.exponent + m.shortest.places ∧
      m.shortest.exponent + m.shortest.places < 2 ^ 31 := by
  have hten : (1 : ℚ) < 10 := by norm_num
  have hpos : (0 : ℚ) < 2 * unitsPerOne := mul_pos two_pos cast_unitsPerOne_pos
  obtain ⟨hleast, hlargest⟩ := m.isNearest_shortest.bounds m.shortest.toRat_nonneg hm
  have hcoefficient : m.shortest.coefficient ≠ 0 := by
    intro h
    rw [Decimal.toRat, h, Nat.cast_zero, zero_mul] at hleast
    exact absurd hleast (not_le.mpr (one_div_pos.mpr hpos))
  obtain ⟨hlower, hupper⟩ := Decimal.toRat_bounds hcoefficient
  have htop : (2 : ℚ) ^ 1024 ≤ 10 ^ ((1024 : Nat) : Int) := by
    rw [zpow_natCast]
    exact pow_le_pow_left₀ two_pos.le (by norm_num) 1024
  have hbottom : (10 : ℚ) ^ (-((unitExponent + 1 : Nat) : Int)) ≤ 1 / (2 * unitsPerOne) := by
    rw [zpow_neg, zpow_natCast, one_div, unitsPerOne, Nat.cast_pow, Nat.cast_ofNat, ← pow_succ']
    exact inv_anti₀ (by positivity) (pow_le_pow_left₀ two_pos.le (by norm_num) _)
  have hlt := (zpow_lt_zpow_iff_right₀ hten).mp (hlower.trans_lt (hlargest.trans_le htop))
  have hgt := (zpow_lt_zpow_iff_right₀ hten).mp (hbottom.trans_lt (hleast.trans_lt hupper))
  have hunit : unitExponent = 1074 := rfl
  omega

/-- **Exponent form** is the text with an exponent, whose exponent gets a sign. -/
theorem toList_render_of_extreme (h : m.IsExtreme) :
    m.render.toList = Numeral.signExponent m.shortest.bareScientific := by
  rw [render, if_pos (usesExponent_iff.mpr h),
    Decimal.signExponent_bareScientific (exponent_bounds h.1)]

/-- Nothing is rounded in a whole number. -/
theorem oneDecimal_eq {k : Nat} (h : m.toRat = k) : m.oneDecimal = pointed 1 (10 * k) := by
  have hunits : m.units * 10 = unitsPerOne * (10 * k) := by
    rw [toRat_eq_natCast_iff.mp h]
    ring
  rw [oneDecimal, hunits, roundQuotient_eq_div unitsPerOne_pos (Nat.mul_mod_right ..),
    Nat.mul_div_cancel_left _ unitsPerOne_pos]

/-- **The format of one decimal is exact** for whole numbers. -/
theorem value?_oneDecimal (h : m.IsIntegral) : Numeral.value? m.oneDecimal = some m.toRat := by
  obtain ⟨k, hk⟩ := h
  rw [oneDecimal_eq hk, Numeral.value?_pointed Nat.one_pos, hk, Nat.pow_one, Nat.cast_mul,
    mul_div_cancel_left₀ _ (by norm_num)]

/-- **Whole numbers** are written with one decimal. -/
theorem toList_render_of_integral (h : ¬m.IsExtreme) (hwhole : m.IsIntegral) :
    m.render.toList = m.oneDecimal := by
  rw [← usesExponent_iff] at h
  rw [render, if_neg h, if_pos (isWhole_iff.mpr hwhole),
    Decimal.toList_positional_of_nonneg (Int.le_refl 0)]
  obtain ⟨k, hk⟩ := hwhole
  rw [oneDecimal_eq hk, toRat_eq_natCast_iff.mp hk, Nat.mul_div_cancel _ unitsPerOne_pos,
    Int.toNat_zero, Nat.pow_zero, Nat.mul_one]

/-- **What is not whole** is written in the plain format, and there is a point. -/
theorem toList_render_of_not_integral (h : ¬m.IsExtreme) (hwhole : ¬m.IsIntegral) :
    m.render.toList = m.shortest.plain ∧ '.' ∈ m.shortest.plain ∧
      Numeral.value? m.shortest.plain = some m.shortest.toRat := by
  rw [← usesExponent_iff] at h
  rw [← isWhole_iff] at hwhole
  have hexponent := exponent_shortest_neg (Bool.not_eq_true _ ▸ hwhole)
  have hplain : m.shortest.positional.toList = m.shortest.plain := by
    rw [Decimal.toList_positional_of_neg hexponent]
    exact (if_neg (by omega)).symm
  rw [render, if_neg h, if_neg hwhole, ← hplain]
  refine ⟨rfl, ?_, m.shortest.value?_positional⟩
  rw [Decimal.toList_positional_of_neg hexponent]
  exact List.mem_append_cons_self ..

/-- Without an exponent there is a point. -/
theorem toList_render_of_not_extreme (h : ¬m.IsExtreme) :
    ∃ places n, m.render.toList = pointed places n := by
  rw [← usesExponent_iff] at h
  rw [render, if_neg h]
  split
  · exact ⟨_, _, Decimal.toList_positional_of_nonneg (Int.le_refl 0)⟩
  · obtain ⟨places, n, -, htext, -⟩ := m.shortest.exists_toList_positional
    exact ⟨places, n, htext⟩

theorem toList_render_eq_scientific (h : m.IsExtreme) :
    m.render.toList = m.shortest.scientific.toList := by
  rw [render, if_pos (usesExponent_iff.mpr h)]

/-- **There is an exponent in the text** of an extreme magnitude, and in no other. -/
theorem e_mem_render_iff : 'e' ∈ m.render.toList ↔ m.IsExtreme := by
  constructor
  · refine fun he => Classical.byContradiction fun h => ?_
    obtain ⟨places, n, htext⟩ := toList_render_of_not_extreme h
    rw [htext] at he
    exact Numeral.e_notMem_pointed places n he
  · intro h
    rw [toList_render_eq_scientific h, Decimal.toList_scientific, Decimal.toList_exponentText]
    exact List.mem_append_cons_self ..

/-- The text of a magnitude is put together from the formats, and none of them loses anything where
it is used. -/
structure WrittenInFormats (m : Magnitude) : Prop where
  /-- The shortest decimal reads back. -/
  shortest : m.IsNearest m.shortest.toRat
  /-- Exponent form is the shortest decimal with an exponent, which is given a sign. -/
  exponent : m.IsExtreme →
    m.render.toList = Numeral.signExponent m.shortest.bareScientific ∧
      Numeral.value? m.render.toList = Numeral.value? m.shortest.bareScientific ∧
      Numeral.value? m.shortest.bareScientific = some m.shortest.toRat
  /-- In exponent form the exponent has a sign and at least two digits. -/
  signed : m.IsExtreme →
    ∃ mantissa sign digits, m.render.toList = mantissa ++ 'e' :: sign :: digits ∧
      (sign = '+' ∨ sign = '-') ∧ 2 ≤ digits.length ∧ ∀ d ∈ digits, d.isDigit = true
  /-- One decimal is written for whole numbers, and it is exact. -/
  oneDecimal : ¬m.IsExtreme → m.IsIntegral →
    m.render.toList = m.oneDecimal ∧ Numeral.value? m.oneDecimal = some m.toRat
  /-- Anything else is the shortest decimal in full, and has a point. -/
  plain : ¬m.IsExtreme → ¬m.IsIntegral →
    m.render.toList = m.shortest.plain ∧ '.' ∈ m.shortest.plain ∧
      Numeral.value? m.shortest.plain = some m.shortest.toRat

/-- **The text of a magnitude is put together from the formats.** -/
theorem writtenInFormats (m : Magnitude) : m.WrittenInFormats where
  shortest := m.isNearest_shortest
  exponent h := by
    rw [toList_render_of_extreme h]
    exact ⟨rfl, Numeral.value?_signExponent _, Decimal.value?_bareScientific _⟩
  signed h := by
    rw [toList_render_eq_scientific h, Decimal.toList_scientific, Decimal.toList_exponentText]
    refine ⟨_, _, _, rfl, ?_, le_length_paddedDigits 2 _, fun _ => isDigit_of_mem_paddedDigits⟩
    split
    · exact .inr rfl
    · exact .inl rfl
  oneDecimal h hwhole := ⟨toList_render_of_integral h hwhole, value?_oneDecimal hwhole⟩
  plain h hwhole := toList_render_of_not_integral h hwhole

end Magnitude

end Calculator
