import Calculator.Proofs.Results

/-!
# What is read from a text

Reading a text token by token, and going on after errors, gives a finite list of readings: each is
a lexeme or an error of spelling, and the last is the end of the input. Whatever is said about the
parser is said in terms of this list, since the parser sees the text through it only.

A token stream has read one lexeme ahead of its cursor. Its own list therefore begins with the
head, and taking the head removes exactly the first member.

## Main definitions

* `Reading`, `Cursor.reading`: what one attempt to read gives.
* `Cursor.readings`, `TokenStream.readings`: all that is read up to the end.
* `readings`: the same for a whole text.
* `TokenStream.ReadFrom`: the stream has just read its head.

## Main results

* `TokenStream.take_cases`: what taking the head can do.
* `TokenStream.readings_take`: taking the head removes the first reading.
* `TokenStream.readings_take_error`: the one way in which taking a head of the right kind fails.
-/

namespace Calculator

/-- What one attempt to read a token gives. -/
abbrev Reading := Except LexError Lexeme

namespace Cursor

/-- What is read next, with the position where it was found. -/
def reading (c : Cursor) : Reading :=
  c.next.result.map fun token => ⟨token, c.next.state.position⟩

theorem reading_eq_ok_iff {c : Cursor} {l : Lexeme} :
    c.reading = .ok l ↔ c.next.result = .ok l.token ∧ c.next.state.position = l.position := by
  rw [reading]
  cases c.next.result with
  | ok t =>
    constructor
    · intro h
      obtain rfl := Except.ok.inj h
      exact ⟨rfl, rfl⟩
    · rintro ⟨h, hposition⟩
      obtain rfl := Except.ok.inj h
      rw [Except.map, hposition]
  | error e => exact ⟨nofun, nofun⟩

/-- Everything that is read from here on, errors passed over, up to the end of the input, which is
the last reading. -/
def readings (c : Cursor) : List Reading :=
  if h : c.next.state.exhausted = true then [c.reading]
  else
    have := length_rest_next_lt (mt c.exhausted_next_iff.mpr h)
    c.reading :: c.next.state.readings
termination_by c.rest.length

theorem readings_of_exhausted_next {c : Cursor} (h : c.next.state.exhausted = true) :
    c.readings = [c.reading] := by
  rw [readings, dif_pos h]

theorem readings_of_not_exhausted_next {c : Cursor} (h : c.next.state.exhausted ≠ true) :
    c.readings = c.reading :: c.next.state.readings := by
  rw [readings, dif_neg h]

/-- What is read depends on the cursor through its next step only. -/
theorem readings_congr {c d : Cursor} (hresult : c.next.result = d.next.result)
    (hstate : c.next.state = d.next.state) : c.readings = d.readings := by
  have hreading : c.reading = d.reading := by rw [reading, reading, hresult, hstate]
  by_cases h : d.next.state.exhausted = true
  · rw [readings_of_exhausted_next (hstate.symm ▸ h), readings_of_exhausted_next h, hreading]
  · have hc : c.next.state.exhausted ≠ true := hstate.symm ▸ h
    rw [readings_of_not_exhausted_next hc, readings_of_not_exhausted_next h, hreading, hstate]

/-- An error is not the end: reading goes on. -/
theorem readings_of_error {c : Cursor} {e : LexError} (h : c.next.result = .error e) :
    c.readings = .error e :: c.next.state.readings := by
  have hnot : c.next.state.exhausted ≠ true := by
    rw [Ne, c.exhausted_next_iff, h]
    exact nofun
  rw [readings_of_not_exhausted_next hnot, reading, h]
  rfl

/-- Neither is a token other than the end. -/
theorem readings_of_token {c : Cursor} {t : Token} (h : c.next.result = .ok t)
    (hend : t ≠ .endOfInput) :
    c.readings = .ok ⟨t, c.next.state.position⟩ :: c.next.state.readings := by
  have hnot : c.next.state.exhausted ≠ true := by
    rw [Ne, c.exhausted_next_iff, h]
    exact fun heq => hend (Except.ok.inj heq)
  rw [readings_of_not_exhausted_next hnot, reading, h]
  rfl

theorem readings_of_exhausted {c : Cursor} (h : c.exhausted = true) :
    c.readings = [.ok ⟨.endOfInput, c.position⟩] := by
  have hnext := next_of_exhausted h
  have hx : c.next.state.exhausted = true := by rw [hnext]; exact h
  rw [readings_of_exhausted_next hx, reading, hnext]
  rfl

/-- Once the end was met there is only the end to read, again and again. -/
theorem readings_of_end {c : Cursor} (h : c.next.result = .ok .endOfInput) :
    c.readings = c.next.state.readings := by
  have hx := c.exhausted_next_iff.mpr h
  rw [readings_of_exhausted hx, readings_of_exhausted_next hx, reading, h]
  rfl

/-- Reading once passes over one reading at most. -/
theorem readings_next_suffix (c : Cursor) : c.next.state.readings <:+ c.readings := by
  cases h : c.next.result with
  | error e =>
    rw [readings_of_error h]
    exact List.suffix_cons _ _
  | ok t =>
    by_cases hend : t = .endOfInput
    · exact ⟨[], (readings_of_end (h.trans (congrArg _ hend))).symm⟩
    · rw [readings_of_token h hend]
      exact List.suffix_cons _ _

end Cursor

/-- Everything that is read from a text. -/
def readings (text : String) : List Reading := (Cursor.ofString text).readings

/-! ### Readings of a stream -/

namespace TokenStream

/-- The head, and everything that is read after it. -/
def readings (s : TokenStream) : List Reading :=
  .ok s.head :: if s.head.token = .endOfInput then [] else s.cursor.readings

theorem readings_of_ne_end {s : TokenStream} (h : s.head.token ≠ .endOfInput) :
    s.readings = .ok s.head :: s.cursor.readings := by
  rw [readings, if_neg h]

theorem head_of_readings {s : TokenStream} {l : Lexeme} {rs : List Reading}
    (h : s.readings = .ok l :: rs) : s.head = l := by
  rw [readings] at h
  exact Except.ok.inj (List.cons.inj h).1

/-- The stream has read one lexeme from a cursor, and it is the head. -/
structure ReadFrom (c : Cursor) (s : TokenStream) : Prop where
  cursor_eq : s.cursor = c.next.state
  reading_eq : c.reading = .ok s.head

theorem ReadFrom.result_next {c : Cursor} {s : TokenStream} (h : s.ReadFrom c) :
    c.next.result = .ok s.head.token := (Cursor.reading_eq_ok_iff.mp h.reading_eq).1

/-- The cursor has found the head where the head is. -/
theorem ReadFrom.position_head {c : Cursor} {s : TokenStream} (h : s.ReadFrom c) :
    s.head.position = s.cursor.position := by
  rw [h.cursor_eq]
  exact (Cursor.reading_eq_ok_iff.mp h.reading_eq).2.symm

theorem readFrom_ofRead {c after : Cursor} {token : Token} {log : List Event}
    (h : c.next = ⟨⟨.ok token, log⟩, after⟩) : (ofRead h).ReadFrom c := by
  constructor
  · rw [h]
    rfl
  · rw [Cursor.reading, h]
    rfl

/-- Reading one lexeme ahead changes nothing in what there is to read. -/
theorem ReadFrom.readings_eq {c : Cursor} {s : TokenStream} (h : s.ReadFrom c) :
    s.readings = c.readings := by
  have hx := c.exhausted_next_iff
  rw [h.result_next, Except.ok.injEq] at hx
  by_cases hend : s.head.token = .endOfInput
  · rw [Cursor.readings_of_exhausted_next (hx.mpr hend), h.reading_eq, readings, if_pos hend]
  · rw [Cursor.readings_of_not_exhausted_next (mt hx.mp hend), h.reading_eq,
      readings_of_ne_end hend, h.cursor_eq]

/-! ### Making a stream -/

theorem readFrom_ofCursor {c : Cursor} {s : TokenStream} (h : (ofCursor c).result = .ok s) :
    s.ReadFrom c := by
  rw [ofCursor] at h
  split at h
  · next hnext =>
    cases h
    exact readFrom_ofRead hnext
  · cases h

/-- A stream that can be made at a cursor has the readings of the cursor. -/
theorem readings_ofCursor {c : Cursor} {s : TokenStream} (h : (ofCursor c).result = .ok s) :
    s.readings = c.readings := (readFrom_ofCursor h).readings_eq

/-- A stream cannot be made when the first reading is an error. -/
theorem result_next_of_ofCursor_error {c : Cursor} {e : LexError}
    (h : (ofCursor c).result = .error e) : c.next.result = .error e := by
  rw [ofCursor] at h
  split at h
  · cases h
  · next hnext =>
    cases h
    rw [hnext]

theorem readings_of_ofCursor_error {c : Cursor} {e : LexError}
    (h : (ofCursor c).result = .error e) : c.readings = .error e :: c.next.state.readings :=
  Cursor.readings_of_error (result_next_of_ofCursor_error h)

/-! ### Taking the head -/

/-- What taking the head gives and leaves. The head is of another kind, or it is taken and the next
one is read, or the next word is misspelled. -/
theorem take_cases (s : TokenStream) (k : Token.Kind) :
    (s.head.token.kind ≠ k ∧ s.take k =
      .error (.syntactic (.unexpectedToken k s.head.token.kind s.head.position)) s) ∨
    (s.head.token.kind = k ∧ (s.take k).result = .ok s.head.token ∧
      (s.take k).state.ReadFrom s.cursor) ∨
    (s.head.token.kind = k ∧ ∃ e, s.cursor.next.result = .error e ∧
      (s.take k).result = .error (.lexical e) ∧
      (s.take k).state.cursor = s.cursor.next.state ∧ (s.take k).state.head = s.head) := by
  by_cases hkind : s.head.token.kind = k
  · match h : s.cursor.next with
    | ⟨⟨.ok t, log⟩, after⟩ =>
      rw [take_of_ok hkind h]
      exact .inr (.inl ⟨hkind, rfl, readFrom_ofRead h⟩)
    | ⟨⟨.error e, log⟩, after⟩ =>
      rw [take_of_error hkind h]
      exact .inr (.inr ⟨hkind, e, rfl, rfl, rfl, rfl⟩)
  · exact .inl ⟨hkind, take_of_ne hkind⟩

/-- A head of the right kind is taken, and the next one is read. -/
theorem take_of_next_ok {s : TokenStream} {k : Token.Kind} (hkind : s.head.token.kind = k)
    {t : Token} (h : s.cursor.next.result = .ok t) :
    (s.take k).result = .ok s.head.token ∧ (s.take k).state.ReadFrom s.cursor := by
  rcases s.take_cases k with ⟨hne, -⟩ | ⟨-, htake⟩ | ⟨-, e, hnext, -⟩
  · exact absurd hkind hne
  · exact htake
  · cases h.symm.trans hnext

/-- A head of the right kind stays when the next word is misspelled. -/
theorem take_of_next_error {s : TokenStream} {k : Token.Kind} (hkind : s.head.token.kind = k)
    {e : LexError} (h : s.cursor.next.result = .error e) :
    (s.take k).result = .error (.lexical e) ∧ (s.take k).state.cursor = s.cursor.next.state ∧
      (s.take k).state.head = s.head := by
  rcases s.take_cases k with ⟨hne, -⟩ | ⟨-, -, hread⟩ | ⟨-, e', hnext, htake⟩
  · exact absurd hkind hne
  · cases h.symm.trans hread.result_next
  · cases h.symm.trans hnext
    exact htake

/-- It is recorded that the head is taken, and then what is read after it. -/
theorem log_take {s : TokenStream} {k : Token.Kind} (hkind : s.head.token.kind = k) :
    (s.take k).log = .taken s.head :: s.cursor.next.log := by
  match h : s.cursor.next with
  | ⟨⟨.ok t, log⟩, after⟩ => rw [take_of_ok hkind h]
  | ⟨⟨.error e, log⟩, after⟩ => rw [take_of_error hkind h]

/-- A head of another kind than the end is not the end. -/
theorem head_ne_end {s : TokenStream} {k : Token.Kind} (hk : k ≠ .endOfInput)
    (hkind : s.head.token.kind = k) : s.head.token ≠ .endOfInput := fun hend =>
  hk (by rw [← hkind, hend]; rfl)

/-- Behind the end of the input no word is misspelled. -/
theorem head_ne_end_of_error {s : TokenStream} {e : LexError}
    (h : s.cursor.next.result = .error e) : s.head.token ≠ .endOfInput := by
  intro htoken
  rw [Cursor.next_of_exhausted (s.exhausted_iff.mpr htoken)] at h
  cases h

/-- **Taking the head removes the first reading.** Only the end of the input, which no rule of the
grammar takes, stays where it is. -/
theorem readings_take {s : TokenStream} {k : Token.Kind} (hk : k ≠ .endOfInput) {t : Token}
    (h : (s.take k).result = .ok t) :
    s.head.token.kind = k ∧ s.readings = .ok s.head :: (s.take k).state.readings := by
  rcases s.take_cases k with ⟨-, htake⟩ | ⟨hkind, -, hread⟩ | ⟨-, e, -, htake, -⟩
  · rw [htake] at h
    cases h
  · exact ⟨hkind, by rw [readings_of_ne_end (head_ne_end hk hkind), hread.readings_eq]⟩
  · rw [htake] at h
    cases h

/-- A head of the right kind cannot be taken only if the reading after it is an error. -/
theorem readings_take_error {s : TokenStream} {k : Token.Kind} (hk : k ≠ .endOfInput)
    (hkind : s.head.token.kind = k) {err : Error} (h : (s.take k).result = .error err) :
    ∃ e rs, err = .lexical e ∧ s.readings = .ok s.head :: .error e :: rs := by
  rcases s.take_cases k with ⟨hne, -⟩ | ⟨-, htake, -⟩ | ⟨-, e, hnext, htake, -⟩
  · exact absurd hkind hne
  · rw [htake] at h
    cases h
  · rw [htake] at h
    refine ⟨e, s.cursor.next.state.readings, (Except.error.inj h).symm, ?_⟩
    rw [readings_of_ne_end (head_ne_end hk hkind), Cursor.readings_of_error hnext]

end TokenStream

end Calculator
