import Calculator.Outcome
import Calculator.Text.Word
import Calculator.Token.Spelling

/-!
# Reading tokens from a text

A cursor stands in a text and reads one token at a time. Blanks are skipped, and the word after
them is read, whether it spells a token or not: reading can go on after an error.

## Main definitions

* `Calculator.Cursor` and `Cursor.next`.
* `Cursor.tokens`: the tokens up to the end of the text.

## Main results

* `Cursor.exhausted_next_iff`: the end is met when nothing is left to read, and only then.
* `Cursor.offset_le_position_next`, `Cursor.position_next_lt_offset`: a word that is read lies
  between the offsets before and after.
* `Cursor.length_rest_next_lt`: whatever is read before the end takes text away.
-/

namespace Calculator

/-- A place in a text. -/
structure Cursor where
  /-- The text that has not been read. -/
  rest : List Char
  /-- Where that text begins. -/
  offset : Nat
  /-- Where the word that was read last begins; the length of the text once its end was met. -/
  position : Nat
  /-- Whether the end of the text was met. -/
  exhausted : Bool
  rest_eq_nil : exhausted = true → rest = []
  deriving DecidableEq

namespace Cursor

/-- The start of a text. -/
def ofString (text : String) : Cursor := ⟨text.toList, 0, 0, false, nofun⟩

/-- The end of a text of the given length. -/
def atEnd (length : Nat) : Cursor := ⟨[], length, length, true, fun _ => rfl⟩

/-- The place after a word that begins at `position`, with `rest` still to be read. -/
def afterWord (position : Nat) (word rest : List Char) : Cursor :=
  ⟨rest, position + byteLength word, position, false, nofun⟩

/-- Where the next word begins, or the text ends. -/
def start (c : Cursor) : Nat := c.offset + byteLength (c.rest.takeWhile isBlank)

/-- Reads the next token. The end of the text is recorded when it is met for the first time;
after that there is nothing to read and nothing changes. -/
def next (c : Cursor) : Outcome LexError Cursor Token :=
  if c.exhausted then .ok .endOfInput c
  else
    match c.rest.dropWhile isBlank with
    | [] => ⟨⟨.ok .endOfInput, [.reachedEnd c.start]⟩, atEnd c.start⟩
    | ch :: cs =>
      let (word, rest) := splitWord ch cs
      match Token.ofWord ch word c.start with
      | .ok token => ⟨⟨.ok token, [.lexed ⟨token, c.start⟩]⟩, afterWord c.start word rest⟩
      | .error e => .error e (afterWord c.start word rest)

/-! ### The three ways of reading -/

/-- Once the end was met, nothing changes and nothing is recorded. -/
theorem next_of_exhausted {c : Cursor} (h : c.exhausted = true) :
    c.next = .ok .endOfInput c := by
  simp [next, h]

/-- With nothing but blanks ahead, the end is met and recorded. -/
theorem next_of_blank {c : Cursor} (h : c.exhausted = false)
    (hrest : c.rest.dropWhile isBlank = []) :
    c.next = ⟨⟨.ok .endOfInput, [.reachedEnd c.start]⟩, atEnd c.start⟩ := by
  simp [next, h, hrest]

/-- Otherwise the next word is read, whether it spells a token or not. -/
theorem next_of_word {c : Cursor} {ch : Char} {cs : List Char}
    (hrest : c.rest.dropWhile isBlank = ch :: cs) :
    c.next.result = Token.ofWord ch (splitWord ch cs).1 c.start ∧
      c.next.state = afterWord c.start (splitWord ch cs).1 (splitWord ch cs).2 := by
  have h : c.exhausted = false := by
    cases hx : c.exhausted with
    | false => rfl
    | true =>
      rw [c.rest_eq_nil hx] at hrest
      cases hrest
  cases hw : Token.ofWord ch (splitWord ch cs).1 c.start <;>
    simp [next, h, hrest, hw, Outcome.error, Logged.error]

/-! ### Where reading leads -/

/-- The end was met exactly when that is what was read. -/
theorem exhausted_next_iff (c : Cursor) :
    c.next.state.exhausted = true ↔ c.next.result = .ok .endOfInput := by
  cases hx : c.exhausted with
  | true => simp [next_of_exhausted hx, hx, Outcome.ok, Logged.ok]
  | false =>
    cases hrest : c.rest.dropWhile isBlank with
    | nil => simp [next_of_blank hx hrest, atEnd]
    | cons ch cs =>
      obtain ⟨hresult, hstate⟩ := next_of_word hrest
      simp [hresult, hstate, afterWord, Token.ofWord_ne_endOfInput]

/-- Before the end was met, a word or the end is found at the offset or after it. -/
theorem offset_le_position_next {c : Cursor} (h : c.exhausted = false) :
    c.offset ≤ c.next.state.position := by
  have hstart : c.offset ≤ c.start := Nat.le_add_right _ _
  cases hrest : c.rest.dropWhile isBlank with
  | nil => simpa [next_of_blank h hrest, atEnd] using hstart
  | cons ch cs => simpa [(next_of_word hrest).2, afterWord] using hstart

/-- A word that was read ends after its beginning. -/
theorem position_next_lt_offset {c : Cursor} (h : c.next.result ≠ .ok .endOfInput) :
    c.next.state.position < c.next.state.offset := by
  cases hx : c.exhausted with
  | true => exact absurd (by simp [next_of_exhausted hx, Outcome.ok, Logged.ok]) h
  | false =>
    cases hrest : c.rest.dropWhile isBlank with
    | nil => exact absurd (by simp [next_of_blank hx hrest]) h
    | cons ch cs =>
      have hpos := byteLength_pos (splitWord_fst_ne_nil ch cs)
      simp only [(next_of_word hrest).2, afterWord]
      omega

theorem offset_le_offset_next (c : Cursor) : c.offset ≤ c.next.state.offset := by
  cases hx : c.exhausted with
  | true => simp [next_of_exhausted hx, Outcome.ok]
  | false =>
    cases hrest : c.rest.dropWhile isBlank with
    | nil => simp [next_of_blank hx hrest, atEnd, start]
    | cons ch cs =>
      simp only [(next_of_word hrest).2, afterWord, start]
      omega

theorem length_rest_next_le (c : Cursor) : c.next.state.rest.length ≤ c.rest.length := by
  cases hx : c.exhausted with
  | true => simp [next_of_exhausted hx, Outcome.ok]
  | false =>
    cases hrest : c.rest.dropWhile isBlank with
    | nil => simp [next_of_blank hx hrest, atEnd]
    | cons ch cs =>
      have hdrop := (List.dropWhile_suffix isBlank (l := c.rest)).length_le
      have hword := length_splitWord_snd_le ch cs
      rw [hrest, List.length_cons] at hdrop
      simp only [(next_of_word hrest).2, afterWord]
      omega

/-- Whatever is read before the end takes text away. -/
theorem length_rest_next_lt {c : Cursor} (h : c.next.result ≠ .ok .endOfInput) :
    c.next.state.rest.length < c.rest.length := by
  cases hx : c.exhausted with
  | true => exact absurd (by simp [next_of_exhausted hx, Outcome.ok, Logged.ok]) h
  | false =>
    cases hrest : c.rest.dropWhile isBlank with
    | nil => exact absurd (by simp [next_of_blank hx hrest]) h
    | cons ch cs =>
      have hdrop := (List.dropWhile_suffix isBlank (l := c.rest)).length_le
      have hword := length_splitWord_snd_le ch cs
      rw [hrest, List.length_cons] at hdrop
      simp only [(next_of_word hrest).2, afterWord]
      omega

/-! ### Reading a whole text -/

/-- Reads tokens up to the end of the text, which is left out, or up to the first error. -/
def tokens (c : Cursor) : Logged LexError (List Token) :=
  match h : c.next with
  | ⟨⟨.error e, log⟩, _⟩ => ⟨.error e, log⟩
  | ⟨⟨.ok token, log⟩, after⟩ =>
    if hend : token = .endOfInput then ⟨.ok [], log⟩
    else
      have : after.rest.length < c.rest.length := by
        have hlt := length_rest_next_lt (c := c) (by simp [h, hend])
        rwa [h] at hlt
      let others := after.tokens
      ⟨others.result.map (token :: ·), log ++ others.log⟩
termination_by c.rest.length

end Cursor

end Calculator
