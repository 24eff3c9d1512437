import Calculator.Cursor

/-!
# Token streams

A token stream is a cursor that has read one token ahead. The token read ahead is its *head*; it
is all that the grammar rules look at. The next token is read only when the head is taken.

## Main definitions

* `Calculator.TokenStream`, and `TokenStream.ofCursor`, which reads the first token.
* `TokenStream.take`: takes the head if it is of a given kind.
* `TokenStream.remaining`: a bound on how many tokens can still be taken.

## Main results

* `TokenStream.take_of_ne`, `TokenStream.take_of_ok`, `TokenStream.take_of_error`: the three ways in
  which taking the head can go.
* `TokenStream.remaining_take_le`, `TokenStream.remaining_take_lt`: taking a token other than the
  end of the input lowers the bound.
-/

namespace Calculator

/-- A cursor and the last token that it read without error. -/
structure TokenStream where
  cursor : Cursor
  head : Lexeme
  /-- Nothing is read after the end of the input. -/
  exhausted_iff : cursor.exhausted = true ↔ head.token = .endOfInput
  /-- The cursor is past the head. -/
  position_lt : head.token ≠ .endOfInput → head.position < cursor.offset
  deriving DecidableEq

namespace TokenStream

/-- The stream whose head was just read. -/
def ofRead {c after : Cursor} {token : Token} {log : List Event}
    (h : c.next = ⟨⟨.ok token, log⟩, after⟩) : TokenStream where
  cursor := after
  head := ⟨token, after.position⟩
  exhausted_iff := by
    have hx := c.exhausted_next_iff
    rwa [h, Except.ok.injEq] at hx
  position_lt hend := by
    have hlt := Cursor.position_next_lt_offset (c := c) (by simpa [h] using hend)
    rwa [h] at hlt

/-- The same head, with the next word read over. -/
def skipWord (s : TokenStream) {e : LexError} {log : List Event} {after : Cursor}
    (h : s.cursor.next = ⟨⟨.error e, log⟩, after⟩) : TokenStream where
  cursor := after
  head := s.head
  exhausted_iff := by
    have hx : after.exhausted ≠ true := by
      have := s.cursor.exhausted_next_iff
      simpa [h] using this
    have hs : s.cursor.exhausted ≠ true := fun hs => by
      rw [Cursor.next_of_exhausted hs] at h
      cases h
    exact ⟨fun h => absurd h hx, fun h => absurd (s.exhausted_iff.2 h) hs⟩
  position_lt hend := by
    have hle := s.cursor.offset_le_offset_next
    rw [h] at hle
    exact Nat.lt_of_lt_of_le (s.position_lt hend) hle

/-- The stream of the tokens at a cursor; its first token is read at once. -/
def ofCursor (c : Cursor) : Logged LexError TokenStream :=
  match h : c.next with
  | ⟨⟨.ok _, log⟩, _⟩ => ⟨.ok (ofRead h), log⟩
  | ⟨⟨.error e, log⟩, _⟩ => ⟨.error e, log⟩

/-- The stream of the tokens of a text. -/
def ofString (text : String) : Logged LexError TokenStream := ofCursor (.ofString text)

/-- Takes the head if it is of the expected kind, and reads the token after it. If the kind is
another one, nothing changes. If the next word is misspelled, the head stays, but the cursor has
passed that word. -/
def take (s : TokenStream) (expected : Token.Kind) : Outcome Error TokenStream Token :=
  let found := s.head.token.kind
  if found = expected then
    match h : s.cursor.next with
    | ⟨⟨.ok _, log⟩, _⟩ => ⟨⟨.ok s.head.token, .taken s.head :: log⟩, ofRead h⟩
    | ⟨⟨.error e, log⟩, _⟩ => ⟨⟨.error (.lexical e), .taken s.head :: log⟩, s.skipWord h⟩
  else .error (.syntactic (.unexpectedToken expected found s.head.position)) s

theorem take_of_ne {s : TokenStream} {k : Token.Kind} (hk : s.head.token.kind ≠ k) :
    s.take k = .error (.syntactic (.unexpectedToken k s.head.token.kind s.head.position)) s := by
  simp [take, hk]

theorem take_of_ok {s : TokenStream} {k : Token.Kind} (hk : s.head.token.kind = k) {t : Token}
    {log : List Event} {after : Cursor} (h : s.cursor.next = ⟨⟨.ok t, log⟩, after⟩) :
    s.take k = ⟨⟨.ok s.head.token, .taken s.head :: log⟩, ofRead h⟩ := by
  rw [take]
  simp only [if_pos hk]
  split
  · next heq =>
    cases h.symm.trans heq
    rfl
  · next heq => cases h.symm.trans heq

theorem take_of_error {s : TokenStream} {k : Token.Kind} (hk : s.head.token.kind = k)
    {e : LexError} {log : List Event} {after : Cursor}
    (h : s.cursor.next = ⟨⟨.error e, log⟩, after⟩) :
    s.take k = ⟨⟨.error (.lexical e), .taken s.head :: log⟩, s.skipWord h⟩ := by
  rw [take]
  simp only [if_pos hk]
  split
  · next heq => cases h.symm.trans heq
  · next heq =>
    cases h.symm.trans heq
    rfl

/-! ### How much can still be taken -/

/-- The characters that have not been read, and one for the head unless it is the end. -/
def remaining (s : TokenStream) : Nat :=
  s.cursor.rest.length + if s.head.token = .endOfInput then 0 else 1

/-- Only the end of the input can be taken for ever. -/
theorem remaining_take_le {s : TokenStream} {k : Token.Kind} (hk : k ≠ .endOfInput) :
    (s.take k).state.remaining ≤ s.remaining := by
  by_cases hkind : s.head.token.kind = k
  · have hhead : s.head.token ≠ .endOfInput := fun h => hk (by rw [← hkind, h]; rfl)
    have hle := s.cursor.length_rest_next_le
    match h : s.cursor.next with
    | ⟨⟨.ok t, log⟩, after⟩ =>
      rw [h] at hle
      simp only [take_of_ok hkind h, ofRead, remaining, if_neg hhead] at hle ⊢
      split <;> omega
    | ⟨⟨.error e, log⟩, after⟩ =>
      rw [h] at hle
      simp only [take_of_error hkind h, skipWord, remaining] at hle ⊢
      omega
  · simp [take_of_ne hkind, Outcome.error]

theorem remaining_take_lt {s : TokenStream} {k : Token.Kind} (hk : k ≠ .endOfInput) {t : Token}
    (ht : (s.take k).result = .ok t) : (s.take k).state.remaining < s.remaining := by
  by_cases hkind : s.head.token.kind = k
  · have hhead : s.head.token ≠ .endOfInput := fun h => hk (by rw [← hkind, h]; rfl)
    have hle := s.cursor.length_rest_next_le
    match h : s.cursor.next with
    | ⟨⟨.ok u, log⟩, after⟩ =>
      have hlt := Cursor.length_rest_next_lt (c := s.cursor)
      rw [h] at hle hlt
      simp only [take_of_ok hkind h, ofRead, remaining, if_neg hhead] at hle hlt ⊢
      split
      · omega
      · next hu => exact Nat.add_lt_add_right (hlt (by simpa using hu)) 1
    | ⟨⟨.error e, log⟩, after⟩ =>
      rw [take_of_error hkind h] at ht
      cases ht
  · rw [take_of_ne hkind] at ht
    cases ht

end TokenStream

end Calculator
