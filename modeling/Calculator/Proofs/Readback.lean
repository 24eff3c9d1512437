import Calculator.Number
import Calculator.Proofs.Formats
import Calculator.Proofs.RoundTrip

/-!
# The text of a number is read as that number

A text is read as a number by what it denotes. Digits, with a minus before them perhaps, are an
integer. Any other decimal text is the real nearest to the rational number it denotes, with the sign
that is written, so that a zero has a sign too. Infinities have names. No text is read as a NaN, and
the text of a NaN is not read at all.

Reading is defined without regard to writing, and a text is read as one number at most. What was
written is then the only number that is read.

## Main definitions

* `Number.ReadsAs`: a text is read as a number.

## Main results

* `Number.ReadsAs.unique`: a text is read as one number at most.
* `Number.readsAs_render_iff`: the text of a number is read as that number.
* `Number.text_determines_number`: the same, and how the text of a real is put together.
-/

namespace Calculator

/-! ### Reading texts of numbers -/

namespace Numeral

/-- Whether there is a minus, and what comes after it. -/
def splitSign : List Char → Bool × List Char
  | '-' :: cs => (true, cs)
  | cs => (false, cs)

theorem splitSign_of_ne {cs : List Char} (h : ∀ ds, cs ≠ '-' :: ds) :
    splitSign cs = (false, cs) :=
  splitSign.eq_2 cs h

end Numeral

open Numeral

/-- A real is read from its sign and from a text without a sign. -/
def Binary64.ReadsAs (negative : Bool) (cs : List Char) : Binary64 → Prop
  | .nan => False
  | .infinite s => s = negative ∧
      (cs = "inf".toList ∨ ∃ q, value? cs = some q ∧ Magnitude.overflowBound ≤ q)
  | .finite s m => s = negative ∧ ∃ q, value? cs = some q ∧ m.IsNearest q

/-- A text is read as a number: as an integer if there are only digits in it, after a minus perhaps,
and as a real otherwise. -/
def Number.ReadsAs (text : String) : Number → Prop
  | .integer n => ∃ k, natural? (splitSign text.toList).2 = some k ∧
      n.toInt = if (splitSign text.toList).1 then -(k : Int) else k
  | .real x => natural? (splitSign text.toList).2 = none ∧
      x.ReadsAs (splitSign text.toList).1 (splitSign text.toList).2

namespace Numeral

/-- What a text denotes is not negative: the sign is not a part of it. -/
theorem mantissa?_nonneg {cs : List Char} {q : ℚ} (h : mantissa? cs = some q) : 0 ≤ q := by
  rw [mantissa?] at h
  split at h
  · obtain ⟨n, -, rfl⟩ := Option.map_eq_some_iff.mp h
    exact Nat.cast_nonneg n
  · simp only [Option.bind_eq_bind, Option.bind_eq_some_iff, Option.pure_def,
      Option.some.injEq] at h
    obtain ⟨n, -, k, -, rfl⟩ := h
    positivity

theorem value?_nonneg {cs : List Char} {q : ℚ} (h : value? cs = some q) : 0 ≤ q := by
  rw [value?] at h
  split at h
  · exact mantissa?_nonneg h
  · simp only [Option.bind_eq_bind, Option.bind_eq_some_iff, Option.pure_def,
      Option.some.injEq] at h
    obtain ⟨p, hp, k, -, rfl⟩ := h
    exact mul_nonneg (mantissa?_nonneg hp) (by positivity)

/-- Names denote nothing. -/
theorem value?_eq_none {c : Char} {cs : List Char} (he : 'e' ∉ cs) (hpoint : '.' ∉ cs) (hc : c ∈ cs)
    (h : c.isDigit = false) : value? cs = none := by
  rw [value?, splitOnce?_eq_none_iff.mpr he, mantissa?, splitOnce?_eq_none_iff.mpr hpoint,
    natural?_eq_none hc h]
  rfl

theorem value?_inf : value? "inf".toList = none :=
  value?_eq_none (by decide) (by decide) (c := 'i') (by decide) rfl

end Numeral

namespace Binary64

variable {negative : Bool} {cs : List Char}

/-- What is too large has no nearest magnitude. -/
theorem not_readsAs_infinite_finite {s t : Bool} {m : Magnitude}
    (hs : (infinite s).ReadsAs negative cs) (ht : (finite t m).ReadsAs negative cs) : False := by
  obtain ⟨-, q, hq, hnearest⟩ := ht
  rcases hs.2 with rfl | ⟨q', hq', hle⟩
  · rw [value?_inf] at hq
    cases hq
  · obtain rfl : q = q' := Option.some.inj (hq.symm.trans hq')
    exact absurd hnearest.lt (not_lt.mpr hle)

theorem ReadsAs.unique {x y : Binary64} (hx : x.ReadsAs negative cs)
    (hy : y.ReadsAs negative cs) : x = y := by
  cases x with
  | nan => exact hx.elim
  | infinite s =>
    cases y with
    | nan => exact hy.elim
    | infinite t => rw [hx.1, hy.1]
    | finite t n => exact (not_readsAs_infinite_finite hx hy).elim
  | finite s m =>
    cases y with
    | nan => exact hy.elim
    | infinite t => exact (not_readsAs_infinite_finite hy hx).elim
    | finite t n =>
      obtain ⟨rfl, q, hq, hm⟩ := hx
      obtain ⟨rfl, q', hq', hn⟩ := hy
      obtain rfl : q = q' := Option.some.inj (hq.symm.trans hq')
      rw [hm.unique (value?_nonneg hq) hn]

end Binary64

/-- **A text is read as one number at most.** -/
theorem Number.ReadsAs.unique {text : String} {v w : Number} (hv : v.ReadsAs text)
    (hw : w.ReadsAs text) : v = w := by
  cases v with
  | integer m =>
    obtain ⟨k, hk, hm⟩ := hv
    cases w with
    | integer n =>
      obtain ⟨l, hl, hn⟩ := hw
      obtain rfl : k = l := Option.some.inj (hk.symm.trans hl)
      rw [Integer.ext (hm.trans hn.symm)]
    | real y => cases hk.symm.trans hw.1
  | real x =>
    cases w with
    | integer n =>
      obtain ⟨l, hl, -⟩ := hw
      cases hl.symm.trans hv.1
    | real y => rw [hv.2.unique hw.2]

/-! ### Reading what was written -/

namespace Magnitude

variable {m : Magnitude}

/-- A text of a magnitude is read as that magnitude. -/
theorem exists_value?_render (m : Magnitude) :
    ∃ q, value? m.render.toList = some q ∧ m.IsNearest q := by
  by_cases h : m.IsExtreme
  · rw [toList_render_eq_scientific h, Decimal.value?_scientific]
    exact ⟨_, rfl, m.isNearest_shortest⟩
  · by_cases hwhole : m.IsIntegral
    · rw [toList_render_of_integral h hwhole, value?_oneDecimal hwhole]
      exact ⟨_, rfl, m.isNearest_self⟩
    · obtain ⟨htext, -, hvalue⟩ := toList_render_of_not_integral h hwhole
      rw [htext, hvalue]
      exact ⟨_, rfl, m.isNearest_shortest⟩

/-- There is something in the text of a magnitude that is not a digit. -/
theorem natural?_render (m : Magnitude) : natural? m.render.toList = none := by
  by_cases h : m.IsExtreme
  · exact natural?_eq_none (e_mem_render_iff.mpr h) rfl
  · obtain ⟨places, n, htext⟩ := toList_render_of_not_extreme h
    rw [htext, natural?_pointed]

/-- The text of a magnitude has no sign. -/
theorem toList_render_ne_cons (m : Magnitude) (cs : List Char) : m.render.toList ≠ '-' :: cs := by
  by_cases h : m.IsExtreme
  · rw [toList_render_eq_scientific h, Decimal.toList_scientific, Decimal.mantissa]
    split
    · exact toDigits_append_ne_cons rfl _ _
    · rw [pointed, List.append_assoc]
      exact toDigits_append_ne_cons rfl _ _
  · obtain ⟨places, n, htext⟩ := toList_render_of_not_extreme h
    rw [htext]
    exact toDigits_append_ne_cons rfl _ _

end Magnitude

theorem Binary64.toList_render_finite (s : Bool) (m : Magnitude) :
    (finite s m).render.toList = if s then '-' :: m.render.toList else m.render.toList := by
  have hminus : "-".toList = ['-'] := rfl
  rw [render]
  cases s with
  | false => rw [if_neg Bool.false_ne_true, if_neg Bool.false_ne_true]
  | true => rw [if_pos rfl, if_pos rfl, String.toList_append, hminus, List.singleton_append]

theorem splitSign_render (s : Bool) (m : Magnitude) :
    splitSign (Binary64.finite s m).render.toList = (s, m.render.toList) := by
  rw [Binary64.toList_render_finite]
  cases s with
  | false => exact splitSign_of_ne m.toList_render_ne_cons
  | true => rfl

namespace Number

/-- A number is read from its text. -/
theorem readsAs_render {v : Number} (h : v ≠ .real .nan) : v.ReadsAs v.render := by
  cases v with
  | integer n =>
    rcases lt_or_ge n.toInt 0 with hn | hn
    · refine ⟨(-n.toInt).toNat, ?_, ?_⟩ <;> rw [render, Integer.toList_render_of_neg hn, splitSign]
      · exact natural?_toDigits _
      · rw [if_pos rfl]
        omega
    · have hsign : splitSign n.render.toList = (false, Nat.toDigits 10 n.toInt.toNat) := by
        rw [Integer.toList_render_of_nonneg hn]
        exact splitSign_of_ne (toDigits_ne_cons rfl _)
      refine ⟨n.toInt.toNat, ?_, ?_⟩ <;> rw [render, hsign]
      · exact natural?_toDigits _
      · exact (Int.toNat_of_nonneg hn).symm
  | real x =>
    cases x with
    | nan => exact absurd rfl h
    | infinite s =>
      cases s with
      | false => exact ⟨natural?_eq_none (c := 'i') (by decide) rfl, rfl, .inl rfl⟩
      | true => exact ⟨natural?_eq_none (c := 'i') (by decide) rfl, rfl, .inl rfl⟩
    | finite s m =>
      obtain ⟨q, hq, hm⟩ := m.exists_value?_render
      rw [ReadsAs, render, splitSign_render]
      exact ⟨m.natural?_render, rfl, q, hq, hm⟩

/-- What is no number has a text that is read as nothing. -/
theorem not_readsAs_nan (w : Number) : ¬w.ReadsAs (Number.real .nan).render := by
  have hsign : splitSign (Number.real .nan).render.toList = (false, "NaN".toList) := rfl
  have hvalue : value? "NaN".toList = none :=
    value?_eq_none (by decide) (by decide) (c := 'N') (by decide) rfl
  intro hw
  cases w with
  | integer n =>
    obtain ⟨k, hk, -⟩ := hw
    rw [hsign, natural?_eq_none (c := 'N') (by decide) rfl] at hk
    cases hk
  | real x =>
    obtain ⟨-, hx⟩ := hw
    rw [hsign] at hx
    cases x with
    | nan => exact hx
    | infinite s =>
      rcases hx.2 with h | ⟨q, hq, -⟩
      · revert h
        decide
      · rw [hvalue] at hq
        cases hq
    | finite s m =>
      obtain ⟨-, q, hq, -⟩ := hx
      rw [hvalue] at hq
      cases hq

/-- **The text of a number is read as that number.** -/
theorem readsAs_render_iff {v w : Number} :
    w.ReadsAs v.render ↔ w = v ∧ v ≠ .real .nan := by
  constructor
  · intro hw
    have hv : v ≠ .real .nan := by
      rintro rfl
      exact not_readsAs_nan w hw
    exact ⟨hw.unique (readsAs_render hv), hv⟩
  · rintro ⟨rfl, hv⟩
    exact readsAs_render hv

/-- The text of a real is not that of an integer. -/
theorem render_real_ne_integer (x : Binary64) (n : Integer) : x.render ≠ n.render := by
  intro h
  have hn : (integer n).ReadsAs (integer n).render := readsAs_render nofun
  rw [render, ← h] at hn
  cases (readsAs_render_iff (v := real x).mp hn).1

/-- Exponent form is for extreme magnitudes. -/
theorem e_mem_render_real_iff (x : Binary64) :
    'e' ∈ x.render.toList ↔ ∃ s m, x = .finite s m ∧ m.IsExtreme := by
  cases x with
  | nan => exact iff_of_false (by decide) (by rintro ⟨_, _, h, -⟩; cases h)
  | infinite s => exact iff_of_false (by cases s <;> decide) (by rintro ⟨_, _, h, -⟩; cases h)
  | finite s m =>
    have htext : 'e' ∈ (Binary64.finite s m).render.toList ↔ 'e' ∈ m.render.toList := by
      rw [Binary64.toList_render_finite]
      cases s with
      | false => exact Iff.rfl
      | true => exact List.mem_cons.trans (or_iff_right (by decide))
    rw [htext, Magnitude.e_mem_render_iff]
    exact ⟨fun h => ⟨s, m, rfl, h⟩, fun ⟨_, _, hx, h⟩ => (Binary64.finite.inj hx).2 ▸ h⟩

/-- **The text of a number determines the number.** The text of any number that is not a NaN is read
as this number and as no other. The text of a real is never that of an integer. There is an
exponent in the text of a finite number below `10 ^ -4` or from `10 ^ 16` on, unless it is zero, and
in no other text. After the sign, a finite number is written as one of the formats gives it; that
the exponent gets a sign does not change what the text denotes, and one decimal is written where it
is exact. -/
theorem text_determines_number :
    (∀ v w : Number, w.ReadsAs v.render ↔ w = v ∧ v ≠ .real .nan) ∧
    (∀ (x : Binary64) (n : Integer), (real x).render ≠ (integer n).render) ∧
    (∀ x : Binary64, 'e' ∈ (real x).render.toList ↔ ∃ s m, x = .finite s m ∧ m.IsExtreme) ∧
    ∀ (s : Bool) (m : Magnitude),
      (real (.finite s m)).render.toList =
          (if s then '-' :: m.render.toList else m.render.toList) ∧
        m.WrittenInFormats :=
  ⟨fun _ _ => readsAs_render_iff, render_real_ne_integer, e_mem_render_real_iff,
    fun s m => ⟨Binary64.toList_render_finite s m, m.writtenInFormats⟩⟩

/-- The sign of a zero is written. -/
example : (real (.signedZero true)).render = "-0.0" := by
  decide +kernel

end Number

end Calculator
