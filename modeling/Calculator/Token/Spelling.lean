import Calculator.Error

/-!
# How tokens are spelled

A word spells a token when it is an operator sign, a parenthesis, or a run of digits whose value is
a 64-bit integer.

## Main definitions

* `Token.ofSign?`, `Token.ofDigits`, and `Token.ofWord`, which joins them.

## Main results

* `Token.ofDigits_eq_ok_iff`: a run of digits spells the literal of its value, however long it is.
* `Token.ofWord_ne_endOfInput`: no word spells the end of the input.
-/

namespace Calculator

namespace Token

/-- The token that a single character spells. -/
def ofSign? : Char → Option Token
  | '+' => some .plus
  | '-' => some .minus
  | '*' => some .star
  | '/' => some .slash
  | '(' => some .leftParen
  | ')' => some .rightParen
  | _ => none

/-- The token that a run of digits at a position spells. Leading zeros do not matter. -/
def ofDigits (digits : List Char) (position : Nat) : Except LexError Token :=
  match Integer.ofInt? (Nat.ofDigitChars 10 digits 0) with
  | some value => .ok (.number value)
  | none => .error (.integerTooLarge (String.ofList digits) position)

/-- The token that a word at a position spells; `c` is the first character of the word. -/
def ofWord (c : Char) (word : List Char) (position : Nat) : Except LexError Token :=
  if c.isDigit then ofDigits word position
  else
    match ofSign? c with
    | some token => .ok token
    | none => .error (.invalidCharacter c position)

/-- A run of digits spells a literal exactly when that literal has the value of the run. -/
theorem ofDigits_eq_ok_iff {digits : List Char} {position : Nat} {t : Token} :
    ofDigits digits position = .ok t ↔
      ∃ value : Integer, t = .number value ∧ value.toInt = Nat.ofDigitChars 10 digits 0 := by
  rw [ofDigits]
  split
  · next value h =>
    rw [Integer.ofInt?_eq_some_iff] at h
    constructor
    · intro ht
      exact ⟨value, (Except.ok.inj ht).symm, h⟩
    · rintro ⟨other, rfl, hother⟩
      rw [Integer.ext (hother.trans h.symm)]
  · next h =>
    constructor
    · intro ht
      cases ht
    · rintro ⟨value, rfl, hvalue⟩
      rw [Integer.ofInt?_eq_some_iff.2 hvalue] at h
      cases h

theorem ofSign?_ne_endOfInput (c : Char) : ofSign? c ≠ some .endOfInput := by
  rw [ofSign?.eq_def]
  split <;> simp

/-- No word spells the end of the input. -/
theorem ofWord_ne_endOfInput (c : Char) (word : List Char) (position : Nat) :
    ofWord c word position ≠ .ok .endOfInput := by
  intro h
  rw [ofWord] at h
  split at h
  · obtain ⟨value, hvalue, -⟩ := ofDigits_eq_ok_iff.1 h
    cases hvalue
  · split at h
    · next token hsign =>
      cases h
      exact ofSign?_ne_endOfInput c hsign
    · cases h

end Token

end Calculator
