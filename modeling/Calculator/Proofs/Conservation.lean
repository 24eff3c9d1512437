import Calculator.Proofs.Operations
import Calculator.Proofs.Places

/-!
# No token is lost and none is given twice

The tokens of a text are those that reading it gives, errors left out, with the end of the input as
the last one. A stream has some of them still to give: its head, and what its cursor will come to.
These are always the last ones of the text, from some token on, however the stream came about and
whatever was done with it. The end of the input is never given up.

Between two operations a stream need not be as it was when it was made. Where a head cannot be taken
because the next word is misspelled, the head stays, and the cursor has moved on all the same. But a
misspelled word is no token, so that nothing that is counted here has changed.

## Main definitions

* `lexemes`, `Cursor.lexemes`, `TokenStream.lexemes`: the tokens that there are still to be had, of
  a text, at a cursor and from a stream.
* `TokenStream.EndsAtCursor`: an end at the head is where the cursor has met it.

## Main results

* `TokenStream.lexemes_of_take`, `TokenStream.lexemes_of_take_error`: what is removed by taking a
  head.
* `TokenStream.lexemes_of_phrase`: what is removed by taking a phrase.
* `TokenStream.lexemes_afterAll_suffix`: what is left whatever was done.
* `lexemes_conserved`: all of this for the streams of a text.
-/

namespace Calculator

/-! ### Tokens of a text -/

/-- The lexemes that are read from here on, errors left out, up to the end of the input. -/
def Cursor.lexemes (c : Cursor) : List Lexeme := c.readings.filterMap Except.toOption

/-- The lexemes of a text, its end included. -/
def lexemes (text : String) : List Lexeme := (Cursor.ofString text).lexemes

/-- The end of the input is the last lexeme of a text and no other one. -/
theorem exists_lexemes_eq (text : String) :
    ∃ ls, lexemes text = ls ++ [⟨.endOfInput, text.utf8ByteSize⟩] ∧
      ∀ l ∈ ls, l.token ≠ .endOfInput := by
  have hreadings : (Cursor.ofString text).readings = _ := readings_eq text
  refine ⟨(wordsAt 0 text.toList).filterMap Except.toOption, ?_, fun l hl => ?_⟩
  · rw [lexemes, Cursor.lexemes, hreadings, List.filterMap_append]
    rfl
  · obtain ⟨r, hr, hl⟩ := List.mem_filterMap.mp hl
    rw [ok_of_toOption hl] at hr
    exact token_ne_endOfInput_of_mem_wordsAt hr

namespace Cursor

variable {c : Cursor}

theorem lexemes_of_error {e : LexError} (h : c.next.result = .error e) :
    c.lexemes = c.next.state.lexemes := by
  rw [lexemes, readings_of_error h]
  rfl

theorem lexemes_of_exhausted (h : c.exhausted = true) :
    c.lexemes = [⟨.endOfInput, c.position⟩] := by
  rw [lexemes, readings_of_exhausted h]
  rfl

theorem lexemes_skip_suffix (n : Nat) (c : Cursor) : (skip n c).lexemes <:+ c.lexemes :=
  (readings_skip_suffix n c).filterMap _

end Cursor

namespace TokenStream

variable {s : TokenStream}

/-- The lexemes that a stream has still to give: the head and, unless it is the end of the input,
those at the cursor. -/
def lexemes (s : TokenStream) : List Lexeme :=
  s.head :: if s.head.token = .endOfInput then [] else s.cursor.lexemes

/-- An end of the input at the head is where the cursor has met it. -/
def EndsAtCursor (s : TokenStream) : Prop :=
  s.head.token = .endOfInput → s.head.position = s.cursor.position

theorem lexemes_eq (s : TokenStream) : s.lexemes = s.readings.filterMap Except.toOption := by
  rw [lexemes, readings]
  split <;> rfl

theorem lexemes_ne_nil (s : TokenStream) : s.lexemes ≠ [] := List.cons_ne_nil _ _

/-- Reading one lexeme ahead removes none. -/
theorem ReadFrom.lexemes_eq {c : Cursor} (h : s.ReadFrom c) : s.lexemes = c.lexemes := by
  rw [TokenStream.lexemes_eq, h.readings_eq, Cursor.lexemes]

theorem ReadFrom.endsAtCursor {c : Cursor} (h : s.ReadFrom c) : s.EndsAtCursor :=
  fun _ => h.position_head

/-! ### Taking a head -/

/-- Where the end of the input is the head it is all that is left. -/
theorem lexemes_of_end (hend : s.EndsAtCursor) (htoken : s.head.token = .endOfInput) :
    s.lexemes = s.cursor.lexemes := by
  have hhead : s.head = ⟨.endOfInput, s.cursor.position⟩ := by
    rw [← hend htoken]
    exact Lexeme.eq_of_token htoken
  rw [lexemes, if_pos htoken, Cursor.lexemes_of_exhausted (s.exhausted_iff.mpr htoken), hhead]

/-- **Taking a head gives the first lexeme and removes it.** The end of the input is given as well,
but is still there afterwards. -/
theorem lexemes_of_take (hend : s.EndsAtCursor) {k : Token.Kind} {t : Token}
    (h : (s.take k).result = .ok t) :
    ∃ rest, s.lexemes = ⟨t, s.head.position⟩ :: rest ∧
      (s.take k).state.lexemes = if t = .endOfInput then s.lexemes else rest := by
  rcases s.take_cases k with ⟨-, htake⟩ | ⟨-, htake, hread⟩ | ⟨-, e, -, htake, -⟩
  · rw [htake] at h
    cases h
  · obtain rfl := Except.ok.inj (htake.symm.trans h)
    refine ⟨_, rfl, ?_⟩
    rw [hread.lexemes_eq]
    split
    · next htoken => exact (lexemes_of_end hend htoken).symm
    · rfl
  · rw [htake] at h
    cases h

/-- **Where a head cannot be taken no lexeme is removed**, though a misspelled word may be. -/
theorem lexemes_of_take_error {k : Token.Kind} {e : Error} (h : (s.take k).result = .error e) :
    (s.take k).state.lexemes = s.lexemes := by
  rcases s.take_cases k with ⟨-, htake⟩ | ⟨-, htake, -⟩ | ⟨-, e, hnext, -, hcursor, hhead⟩
  · rw [htake]
    rfl
  · rw [htake] at h
    cases h
  · rw [lexemes, lexemes, hcursor, hhead, Cursor.lexemes_of_error hnext]

theorem endsAtCursor_take (hend : s.EndsAtCursor) (k : Token.Kind) :
    (s.take k).state.EndsAtCursor := by
  rcases s.take_cases k with ⟨-, htake⟩ | ⟨-, -, hread⟩ | ⟨-, e, hnext, -, -, hhead⟩
  · rw [htake]
    exact hend
  · exact hread.endsAtCursor
  · intro htoken
    rw [hhead] at htoken
    exact absurd htoken (head_ne_end_of_error hnext)

/-! ### Whatever is done -/

/-- What taking a head leaves is left of what there was. -/
theorem lexemes_take_suffix (hend : s.EndsAtCursor) (k : Token.Kind) :
    (s.take k).state.lexemes <:+ s.lexemes := by
  cases h : (s.take k).result with
  | error e => exact ⟨[], lexemes_of_take_error h⟩
  | ok t =>
    obtain ⟨rest, hs, htake⟩ := lexemes_of_take hend h
    rw [htake]
    split
    · exact List.suffix_rfl
    · rw [hs]
      exact List.suffix_cons _ _

theorem endsAtCursor_afterAll (hend : s.EndsAtCursor) (ops : List Operation) :
    (s.afterAll ops).EndsAtCursor :=
  afterAll_of_take (P := EndsAtCursor) (fun _ k h => endsAtCursor_take h k) ops hend

/-- **Whatever is done, the last lexemes are left**, from some lexeme on. -/
theorem lexemes_afterAll_suffix (hend : s.EndsAtCursor) (ops : List Operation) :
    (s.afterAll ops).lexemes <:+ s.lexemes := by
  have key := afterAll_of_take (P := fun q => q.EndsAtCursor ∧ q.lexemes <:+ s.lexemes)
    (fun _ k h => ⟨endsAtCursor_take h.1 k, (lexemes_take_suffix h.1 k).trans h.2⟩) ops
    ⟨hend, List.suffix_rfl⟩
  exact key.2

/-- Taking a phrase removes the lexemes that derive its tree. -/
theorem lexemes_of_phrase {c : Category} {e : Expr} (h : (s.phrase c).result = .ok e) :
    ∃ ls, s.lexemes = ls ++ (s.phrase c).state.lexemes ∧ Derives c ls e := by
  obtain ⟨ls, hreadings, hderives⟩ := spells_of_phrase ⟨h, rfl⟩
  refine ⟨ls, ?_, hderives⟩
  have hls : (ls.map (Except.ok : Lexeme → Reading)).filterMap Except.toOption = ls := by
    rw [List.filterMap_map]
    exact List.filterMap_some
  rw [lexemes_eq, lexemes_eq, hreadings, List.filterMap_append, hls]

end TokenStream

/-- **No token is lost and none is given twice.** Let a stream be made at a place of a text that
some readings lead to, and let anything be done with it, errors passed over. Then what it has still
to give are the last lexemes of the text, from one of them on. Taking a head gives the first of
these and removes it, unless it is the end of the input, and where the head cannot be taken none is
removed. Taking a phrase removes lexemes that derive its tree. -/
theorem lexemes_conserved {text : String} {n : Nat} {s q : TokenStream}
    (hs : (TokenStream.ofCursor ((Cursor.ofString text).skip n)).result = .ok s)
    {ops : List Operation} (hq : s.afterAll ops = q) :
    (∃ ls, lexemes text = ls ++ [⟨.endOfInput, text.utf8ByteSize⟩] ∧
      ∀ l ∈ ls, l.token ≠ .endOfInput) ∧
    (q.lexemes ≠ [] ∧ q.lexemes <:+ lexemes text) ∧
    (∀ k t, (q.take k).result = .ok t →
      ∃ rest, q.lexemes = ⟨t, q.head.position⟩ :: rest ∧
        (q.take k).state.lexemes = if t = .endOfInput then q.lexemes else rest) ∧
    (∀ k e, (q.take k).result = .error e → (q.take k).state.lexemes = q.lexemes) ∧
    ∀ c e, (q.phrase c).result = .ok e →
      ∃ ls, q.lexemes = ls ++ (q.phrase c).state.lexemes ∧ Derives c ls e := by
  have hread := TokenStream.readFrom_ofCursor hs
  have hend := hread.endsAtCursor
  have hsuffix := TokenStream.lexemes_afterAll_suffix hend ops
  rw [hread.lexemes_eq, hq] at hsuffix
  refine ⟨exists_lexemes_eq text, ⟨q.lexemes_ne_nil, ?_⟩, fun k t => ?_, fun k e => ?_,
    fun c e => ?_⟩
  · exact hsuffix.trans (Cursor.lexemes_skip_suffix n _)
  · exact TokenStream.lexemes_of_take (hq ▸ TokenStream.endsAtCursor_afterAll hend ops)
  · exact TokenStream.lexemes_of_take_error
  · exact TokenStream.lexemes_of_phrase

/-- A stream is made behind a parenthesis, and its head cannot be taken at first, because a
misspelled word comes next. When the word has been passed over, the sum that is then read removes
its lexemes, and the literal behind the sum is left. -/
theorem lexemes_conserved_misspelled :
    ∃ s, (TokenStream.ofCursor ((Cursor.ofString "(1 ? + 2 3").skip 1)).result = .ok s ∧
      (s.afterAll [.take .number]).lexemes <:+ lexemes "(1 ? + 2 3" ∧
      ∃ ls, (s.afterAll [.take .number]).lexemes =
          ls ++ ((s.afterAll [.take .number]).phrase .expression).state.lexemes ∧
        Derives .expression ls (.binary .add (.literal ⟨1, by decide, by decide⟩ 1)
          (.literal ⟨2, by decide, by decide⟩ 7) 5) := by
  obtain ⟨s, hs⟩ := exists_ok_of_isSome
    (x := (TokenStream.ofCursor ((Cursor.ofString "(1 ? + 2 3").skip 1)).result)
    (by decide +kernel)
  have hsum : ((TokenStream.ofCursor ((Cursor.ofString "(1 ? + 2 3").skip 1)).result.toOption.bind
      fun s => ((s.afterAll [.take .number]).phrase .expression).result.toOption) =
      some (.binary .add (.literal ⟨1, by decide, by decide⟩ 1)
        (.literal ⟨2, by decide, by decide⟩ 7) 5) := by
    decide +kernel
  rw [hs] at hsum
  obtain ⟨-, ⟨-, hsuffix⟩, -, -, hphrase⟩ :=
    lexemes_conserved hs (rfl : s.afterAll [.take .number] = _)
  exact ⟨s, hs, hsuffix, hphrase _ _ (ok_of_toOption hsum)⟩

end Calculator
