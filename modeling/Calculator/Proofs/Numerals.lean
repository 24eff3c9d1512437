import Calculator.Proofs.Calls
import Calculator.Proofs.Digits
import Calculator.Proofs.Provenance

/-!
# How numerals are read

A run of digits in a text is read when the words before it have been read, and it is read once. What
it is read as depends on its value and on nothing else. The value may be written with any number of
zeros before it, so that a long run can be a small number.

A machine does not have the value at hand. It goes through the digits, and each of its steps has to
stay in the range of 64 bits. That is the same: what was read so far only grows, and so a step that
fails fails for a value that is too large.

## Main definitions

* `Integer.push?`, `Integer.accumulate?`: one more digit, and digits one after the other.

## Main results

* `Integer.accumulate?_eq`: accumulating digits gives their value if this is in the range.
* `callAfter_of_run`: the call that reads a run of digits.
* `numeral_is_read_exactly`: what a run of digits is read as.
-/

namespace Calculator

/-! ### Digit by digit -/

namespace Integer

/-- One more digit at the end: ten times the integer, and the digit added. Each step has to stay in
the range. -/
def push? (n : Integer) (d : Char) : Option Integer :=
  (ofInt? (10 * n.toInt)).bind fun tens => ofInt? (tens.toInt + (d.toNat - '0'.toNat : Nat))

/-- Digits one after the other, beginning with zero. -/
def accumulate? (digits : List Char) : Option Integer := digits.foldlM push? default

/-- Of the two steps the second decides. -/
theorem push?_eq {n : Integer} (hn : 0 ≤ n.toInt) (d : Char) :
    n.push? d = ofInt? (10 * n.toInt + (d.toNat - '0'.toNat : Nat)) := by
  rw [push?]
  cases htens : ofInt? (10 * n.toInt) with
  | some tens =>
    rw [Option.bind_some, ofInt?_eq_some_iff.mp htens]
  | none =>
    rw [ofInt?_eq_none_iff] at htens
    rw [Option.bind_none, eq_comm, ofInt?_eq_none_iff]
    omega

end Integer

/-- What was read so far only grows. -/
theorem le_ofDigitChars (digits : List Char) (n : Nat) : n ≤ Nat.ofDigitChars 10 digits n := by
  rw [Nat.ofDigitChars_eq_ofDigitChars_zero]
  exact (Nat.le_mul_of_pos_left n (Nat.pow_pos (by decide))).trans (Nat.le_add_right _ _)

namespace Integer

theorem foldlM_push? {n : Integer} (hn : 0 ≤ n.toInt) (digits : List Char) :
    digits.foldlM push? n = ofInt? (Nat.ofDigitChars 10 digits n.toInt.toNat) := by
  induction digits generalizing n with
  | nil =>
    rw [List.foldlM_nil, Nat.ofDigitChars_nil, eq_comm]
    exact ofInt?_eq_some_iff.mpr (Int.toNat_of_nonneg hn).symm
  | cons d digits ih =>
    have hsum : 10 * n.toInt + (d.toNat - '0'.toNat : Nat) =
        ((10 * n.toInt.toNat + (d.toNat - '0'.toNat) : Nat) : Int) := by omega
    rw [List.foldlM_cons, Nat.ofDigitChars_cons, push?_eq hn, hsum]
    cases hpush : ofInt? ((10 * n.toInt.toNat + (d.toNat - '0'.toNat) : Nat) : Int) with
    | some k =>
      have hk := ofInt?_eq_some_iff.mp hpush
      have hstep := ih (n := k) (by omega)
      rwa [hk, Int.toNat_natCast] at hstep
    | none =>
      -- a value that is too large remains so
      have hle := le_ofDigitChars digits (10 * n.toInt.toNat + (d.toNat - '0'.toNat))
      rw [ofInt?_eq_none_iff] at hpush
      refine (ofInt?_eq_none_iff.mpr ?_).symm
      omega

/-- **Accumulating digits** gives their value, if it is in the range. -/
theorem accumulate?_eq (digits : List Char) :
    accumulate? digits = ofInt? (decimalValue digits) := by
  rw [accumulate?, foldlM_push? (Int.le_refl 0), ← ofDigitChars_eq_decimalValue]
  rfl

end Integer

/-! ### Runs of digits -/

/-- Zeros before a run of digits do not count. -/
theorem decimalValue_zeros (k : Nat) (digits : List Char) :
    decimalValue (List.replicate k '0' ++ digits) = decimalValue digits := by
  rw [← ofDigitChars_eq_decimalValue, ← ofDigitChars_eq_decimalValue, Nat.ofDigitChars_append,
    Nat.ofDigitChars_replicate_zero, Nat.mul_zero]

/-- **What digits spell** is what accumulating them gives. -/
theorem ofDigits_eq_accumulate? (digits : List Char) (p : Nat) :
    Token.ofDigits digits p =
      match Integer.accumulate? digits with
      | some value => .ok (.number value)
      | none => .error (.integerTooLarge (String.ofList digits) p) := by
  rw [Integer.accumulate?_eq, ← ofDigitChars_eq_decimalValue]
  cases h : Integer.ofInt? (Nat.ofDigitChars 10 digits 0) <;> simp only [Token.ofDigits, h]

theorem ofDigits_eq_number_iff {digits : List Char} {p : Nat} {value : Integer} :
    Token.ofDigits digits p = .ok (.number value) ↔
      value.toInt = decimalValue digits ∧ decimalValue digits ≤ 2 ^ 63 - 1 := by
  rw [Token.ofDigits_eq_ok_iff, ofDigitChars_eq_decimalValue]
  constructor
  · rintro ⟨other, hother, hvalue⟩
    obtain rfl := Token.number.inj hother
    have hlt := value.lt
    exact ⟨hvalue, by omega⟩
  · rintro ⟨hvalue, -⟩
    exact ⟨value, rfl, hvalue⟩

theorem ofDigits_eq_error_iff {digits : List Char} {p : Nat} {e : LexError} :
    Token.ofDigits digits p = .error e ↔
      e = .integerTooLarge (String.ofList digits) p ∧ 2 ^ 63 - 1 < decimalValue digits := by
  rw [ofDigits_eq_accumulate?, Integer.accumulate?_eq]
  cases h : Integer.ofInt? (decimalValue digits) with
  | some value =>
    have hvalue := Integer.ofInt?_eq_some_iff.mp h
    have hlt := value.lt
    simp only [reduceCtorEq, false_iff, not_and, not_lt]
    omega
  | none =>
    rw [Integer.ofInt?_eq_none_iff] at h
    have hlarge : 2 ^ 63 - 1 < decimalValue digits := by omega
    simp only [Except.error.injEq, hlarge, and_true]
    exact eq_comm

/-- An error about digits has their position. -/
theorem report_ofDigits (digits : List Char) (p : Nat) :
    Reading.report ((Token.ofDigits digits p).map fun token => ⟨token, p⟩) =
      (Token.ofDigits digits p, p) := by
  rw [ofDigits_eq_accumulate?]
  cases Integer.accumulate? digits <;> rfl

/-! ### Runs of digits in a text -/

variable {text : String} {p : Nat} {digits : List Char}

/-- **The call that reads a run of digits** is the one after those for the words before it. -/
theorem callAfter_of_run (h : RunOfDigits text p digits) :
    ∃ n < (wordsAt 0 text.toList).length,
      (callAfter text n).result = Token.ofDigits digits p ∧
        (callAfter text n).state.position = p := by
  obtain ⟨before, after, htext, hposition, hne, hdigits, hbefore, hafter⟩ := h
  have hseparate : Separate before (digits ++ after) := by
    intro c hc _ _ hdigit
    rw [hbefore c hc] at hdigit
    cases hdigit
  have hwords := wordsAt_append hseparate 0
  rw [wordsAt_append (fun _ _ d hd _ => hafter d hd), wordsAt_digits hne hdigits, Nat.zero_add,
    hposition, ← htext, List.singleton_append] at hwords
  have hlt : (wordsAt 0 before).length < (wordsAt 0 text.toList).length := by simp [hwords]
  have hreport := callAfter_of_lt hlt
  simp only [hwords, List.getElem_append_right (Nat.le_refl _), Nat.sub_self,
    List.getElem_cons_zero, report_ofDigits] at hreport
  exact ⟨_, hlt, Prod.mk.inj hreport⟩

/-- No place of a text is read twice. -/
theorem eq_of_position_callAfter {m n : Nat} (hn : n < (wordsAt 0 text.toList).length)
    (h : (callAfter text m).state.position = (callAfter text n).state.position) : m = n := by
  have hsorted := List.pairwise_iff_getElem.mp (pairwise_position_wordsAt 0 text.toList)
  have hposition : ∀ (k : Nat) (hk : k < (wordsAt 0 text.toList).length),
      (callAfter text k).state.position = (wordsAt 0 text.toList)[k].report.2 :=
    fun _ hk => (Prod.mk.inj (callAfter_of_lt hk)).2
  have hwords := position_lt_of_mem_words (List.getElem_mem hn)
  have hend := (Prod.mk.inj (callAfter_words text)).2
  rw [hposition n hn] at h
  rcases Nat.lt_trichotomy m (wordsAt 0 text.toList).length with hm | rfl | hm
  · rw [hposition m hm] at h
    rcases Nat.lt_trichotomy m n with hlt | heq | hlt
    · exact absurd h (hsorted m n hm hn hlt).ne
    · exact heq
    · exact absurd h (hsorted n m hn hm hlt).ne'
  · rw [hend] at h
    exact absurd h hwords.ne'
  · rw [callAfter_of_gt hm, Outcome.ok, hend] at h
    exact absurd h hwords.ne'

/-- **A numeral is read exactly.** A run of digits that stands in a text is read by one call, and
only by that one. It is read as an integer when its value is at most the largest integer, and then
the integer is that value; otherwise it is refused, as it is written. Accumulating the digits comes
to the same, and zeros before them make no difference, however many there are. -/
theorem numeral_is_read_exactly (h : RunOfDigits text p digits) :
    ∃ n, (callAfter text n).state.position = p ∧
      (∀ m, (callAfter text m).state.position = p → m = n) ∧
      (∀ value : Integer, (callAfter text n).result = .ok (.number value) ↔
        value.toInt = decimalValue digits ∧ decimalValue digits ≤ 2 ^ 63 - 1) ∧
      (∀ e, (callAfter text n).result = .error e ↔
        e = .integerTooLarge (String.ofList digits) p ∧ 2 ^ 63 - 1 < decimalValue digits) ∧
      (callAfter text n).result =
        (match Integer.accumulate? digits with
        | some value => .ok (.number value)
        | none => .error (.integerTooLarge (String.ofList digits) p)) ∧
      ∀ k, Integer.accumulate? (List.replicate k '0' ++ digits) = Integer.accumulate? digits := by
  obtain ⟨n, hn, hresult, hposition⟩ := callAfter_of_run h
  refine ⟨n, hposition, fun m hm => eq_of_position_callAfter hn (hm.trans hposition.symm), ?_⟩
  rw [hresult]
  refine ⟨fun value => ofDigits_eq_number_iff, fun e => ofDigits_eq_error_iff,
    ofDigits_eq_accumulate? digits p, fun k => ?_⟩
  rw [Integer.accumulate?_eq, Integer.accumulate?_eq, decimalValue_zeros]

/-- The largest integer, with more digits than it needs. -/
theorem numeral_is_read_exactly_padded :
    RunOfDigits "2*000009223372036854775807" 2 "000009223372036854775807".toList ∧
      ∃ n, (callAfter "2*000009223372036854775807" n).result =
        .ok (.number { toInt := 9223372036854775807 }) := by
  have hlast : "2*".toList.getLast? = some '*' := rfl
  have hrun : RunOfDigits "2*000009223372036854775807" 2 "000009223372036854775807".toList := by
    refine ⟨"2*".toList, [], by decide +kernel, by decide +kernel, by decide +kernel,
      List.all_eq_true.mp (by decide +kernel), fun d hd => ?_, nofun⟩
    obtain rfl : '*' = d := Option.some.inj (hlast.symm.trans hd)
    rfl
  have hvalue : decimalValue "000009223372036854775807".toList = 9223372036854775807 := by
    rw [← ofDigitChars_eq_decimalValue]
    decide +kernel
  obtain ⟨n, -, -, hnumber, -⟩ := numeral_is_read_exactly hrun
  refine ⟨hrun, n, (hnumber _).mpr ?_⟩
  rw [hvalue]
  exact ⟨rfl, Nat.le_refl _⟩

end Calculator
