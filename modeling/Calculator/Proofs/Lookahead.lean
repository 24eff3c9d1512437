import Calculator.Proofs.Contracts
import Calculator.Proofs.Places
import Calculator.Proofs.ViablePrefix

/-!
# How far a text is looked at

To take a token the parser reads the one after it, and it reads nothing else. When it is done, with
a tree or with an error, the cursor therefore stands behind the last word that had any influence,
and what comes after that place can be replaced by any other text. Only if the word is a run of
digits must the other text not go on with a digit, because then the word would be another one.

Two facts make this a theorem about texts. The place of the cursor tells where the pushdown machine
stops: it is at the reading that the cursor made last, whether the machine stops with an answer or
because a word is misspelled. And the readings up to the place of a cursor are the words of the
text up to there, so that they are the same in every text that begins alike.

## Main definitions

* `cursorAfter`: the cursor that the evaluation of a text leaves.
* `TokenStream.UpToDate`, `FailsAt`: the head, or an error, is what the cursor has come to last.

## Main results

* `TokenStream.expression_meets`: a rule leaves a stream with its cursor behind what it needed.
* `exists_stop_at_cursor`: the machine stops at the last reading.
* `evaluate_eq_of_extract_eq`: nothing behind the last word is looked at.
-/

namespace Calculator

/-- The cursor that the evaluation of a text leaves. It stands behind the last word that it read. -/
def cursorAfter (text : String) (strict : Bool) : Cursor :=
  match (TokenStream.ofString text).result with
  | .ok s => (s.calculate strict).state.cursor
  | .error _ => (Cursor.ofString text).next.state

/-! ### What a cursor has come to last -/

/-- An error is found where the cursor of a stream in a text has come to last. -/
def FailsAt (text : String) (e : Error) (s : TokenStream) : Prop :=
  ∃ n, s.cursor = ((Cursor.ofString text).skip n).next.state ∧ e.position = s.cursor.position

namespace TokenStream

/-- The head is what the cursor of a stream in a text has come to last. -/
def UpToDate (text : String) (s : TokenStream) : Prop :=
  ∃ n, s.ReadFrom ((Cursor.ofString text).skip n)

variable {text : String} {s : TokenStream}

theorem UpToDate.position_head (h : UpToDate text s) : s.head.position = s.cursor.position := by
  obtain ⟨n, hread⟩ := h
  exact hread.position_head

theorem UpToDate.exists_cursor_eq (h : UpToDate text s) :
    ∃ n, s.cursor = ((Cursor.ofString text).skip n).next.state := by
  obtain ⟨n, hread⟩ := h
  exact ⟨n, hread.cursor_eq⟩

theorem upToDate_of_ofString (h : (ofString text).result = .ok s) : UpToDate text s :=
  ⟨0, readFrom_ofCursor h⟩

/-- **Taking heads keeps a stream up to date**, and a rule that fails does so at what the cursor
has come to. -/
theorem contract_upToDate (text : String) :
    Contract (fun _ => UpToDate text) fun e _ => FailsAt text e where
  take _ s hs _ := by
    obtain ⟨n, hcursor⟩ := hs.exists_cursor_eq
    rw [← Cursor.skip_succ] at hcursor
    refine take_meetsAfter rfl (fun q hread => ⟨n + 1, hcursor ▸ hread⟩) (fun e q hnext hq _ => ?_)
    refine ⟨n + 1, by rw [hq, hcursor], ?_⟩
    rw [hq]
    exact Cursor.position_of_next_error hnext
  no_factor _ s hs _ _ := by
    obtain ⟨n, hcursor⟩ := hs.exists_cursor_eq
    exact ⟨n, hcursor, hs.position_head⟩
  no_paren _ s hs _ _ := by
    obtain ⟨n, hcursor⟩ := hs.exists_cursor_eq
    exact ⟨n, hcursor, hs.position_head⟩

/-- Taking an expression leaves the cursor behind the head, or behind what is wrong. -/
theorem expression_meets (h : UpToDate text s) :
    s.expression.Meets (UpToDate text) (FailsAt text) :=
  phrase_meets (contract_upToDate text) .expression h

end TokenStream

/-- The cursor that the evaluation of a text leaves has read something. -/
theorem exists_cursorAfter_eq (text : String) (strict : Bool) :
    ∃ n, cursorAfter text strict = ((Cursor.ofString text).skip n).next.state := by
  rw [cursorAfter]
  cases hs : (TokenStream.ofString text).result with
  | error e => exact ⟨0, rfl⟩
  | ok s =>
    dsimp only
    rw [TokenStream.state_calculate]
    have hmeets := TokenStream.expression_meets (TokenStream.upToDate_of_ofString hs)
    cases hresult : s.expression.result with
    | ok e =>
      exact (hmeets.of_ok hresult).exists_cursor_eq
    | error err =>
      obtain ⟨n, hcursor, -⟩ := hmeets.of_error hresult
      exact ⟨n, hcursor⟩

/-! ### Where the machine stops -/

/-- **The machine stops at the last reading**: what it is fed up to there makes it stop with what
parsing the text gives. -/
theorem exists_stop_at_cursor (text : String) (strict : Bool) :
    ∃ (as : List Reading) (r : Reading) (bs : List Reading),
      readings text = as ++ r :: bs ∧ r.position = (cursorAfter text strict).position ∧
        advance (Pushdown.move strict) Pushdown.start (as ++ [r]) = .stop (parse text strict) := by
  have hrun := Pushdown.advance_readings text strict
  rw [cursorAfter]
  cases hs : (TokenStream.ofString text).result with
  | error e =>
    have hread : readings text = .error e :: _ := TokenStream.readings_of_ofCursor_error hs
    rw [hread, advance_error] at hrun
    exact ⟨[], .error e, _, hread,
      Cursor.position_of_next_error (TokenStream.result_next_of_ofCursor_error hs), hrun⟩
  | ok s =>
    dsimp only
    rw [TokenStream.state_calculate]
    have hmeets := TokenStream.expression_meets (TokenStream.upToDate_of_ofString hs)
    cases hresult : s.expression.result with
    | ok e =>
      obtain ⟨⟨ls, rest, hread, hderives⟩, hop⟩ := beginsWith_of_expression hs hresult
      have hstop := Pushdown.advance_expression hderives hop strict
      rw [hread, hstop] at hrun
      exact ⟨_, _, _, hread, (hmeets.of_ok hresult).position_head, (hstop []).trans hrun⟩
    | error err =>
      obtain ⟨n, -, hposition⟩ := hmeets.of_error hresult
      have hparse : parse text strict = .error err := by
        rw [parse_of_stream hs, Pushdown.result_parse, hresult]
        rfl
      rw [hparse] at hrun ⊢
      obtain ⟨ls, r, rest, t, hread, hgo, hmove⟩ := exists_of_advance_stop hrun
      refine ⟨_, r, rest, hread, (Pushdown.position_of_stop hmove).trans hposition, ?_⟩
      rw [advance_append, hgo]
      exact (advance_singleton _ t r).trans hmove

/-! ### Texts that begin alike -/

/-- A text that has the first bytes of another text begins with the characters that these are. -/
theorem exists_append_of_extract {before after : List Char} {text text' : String}
    (htext : text.toList = before ++ after)
    (h : text'.toByteArray.extract 0 (byteLength before) =
      text.toByteArray.extract 0 (byteLength before)) :
    ∃ rest, text'.toList = before ++ rest := by
  have hbytes : text.toByteArray =
      (String.ofList before).toByteArray ++ (String.ofList after).toByteArray := by
    rw [← String.toByteArray_append, ← String.ofList_append, ← htext, String.ofList_toList]
  have hbefore : byteLength before = (String.ofList before).toByteArray.size := by
    rw [String.size_toByteArray, ← byteLength_toList, String.toList_ofList]
  rw [hbytes, ByteArray.extract_append_eq_left hbefore] at h
  have hsize : byteLength before ≤ text'.utf8ByteSize := by
    have := congrArg ByteArray.size h
    rw [ByteArray.size_extract, String.size_toByteArray, ← hbefore] at this
    omega
  have hvalid : String.Pos.Raw.IsValid text' ⟨byteLength before⟩ := by
    refine String.Pos.Raw.isValid_iff_isValidUTF8_extract_zero.mpr ⟨hsize, ?_⟩
    rw [h]
    exact (String.ofList before).isValidUTF8
  obtain ⟨us, vs, rfl, hus⟩ := String.Pos.Raw.isValid_iff_exists_append.mp hvalid
  have husize : byteLength before = us.toByteArray.size := by
    rw [String.size_toByteArray]
    exact congrArg String.Pos.Raw.byteIdx hus
  rw [String.toByteArray_append, ByteArray.extract_append_eq_left husize,
    String.toByteArray_inj] at h
  exact ⟨vs.toList, by rw [String.toList_append, h, String.toList_ofList]⟩

/-- What is read before some place does not depend on the text behind it. -/
theorem exists_readings_before_eq {before after after' : List Char} (h : Separate before after)
    (h' : Separate before after') {as bs : List Reading} {r : Reading}
    (hreadings : (Cursor.before 0 (before ++ after)).readings = as ++ r :: bs)
    (hr : r.position < byteLength before) :
    ∃ cs, (Cursor.before 0 (before ++ after')).readings = as ++ r :: cs := by
  rw [Cursor.readings_before_append h] at hreadings
  rw [Cursor.readings_before_append h']
  rcases append_eq_append_cons hreadings with ⟨ds, hwords⟩ | ⟨ds, -, htail⟩
  · exact ⟨_, by rw [hwords, List.append_assoc, List.cons_append]⟩
  · have hmem : r ∈ (Cursor.before (0 + byteLength before) after).readings := by
      rw [htail]
      exact List.mem_append_right ds List.mem_cons_self
    have := Cursor.le_position_of_mem_readings hmem
    omega

/-- What is read up to a word is also read from another text that has the word in the same place. -/
theorem exists_readings_eq_of_hasRead {text text' : String} {before word after : List Char}
    {c : Cursor} (h : c.HasRead text.toList before word) (hne : word ≠ [])
    (htext' : text'.toList = before ++ word ++ after) (hseparate : Separate word after)
    {as bs : List Reading} {r : Reading} (hreadings : readings text = as ++ r :: bs)
    (hr : r.position = c.position) : ∃ cs, readings text' = as ++ r :: cs := by
  have hbefore : r.position < byteLength (before ++ word) := by
    have hpos := byteLength_pos hne
    rw [hr, h.position_eq, byteLength_append]
    omega
  rw [readings_eq_before, h.stands.text_eq] at hreadings
  rw [readings_eq_before, htext']
  exact exists_readings_before_eq h.separate_rest (hseparate.append_left hne before) hreadings
    hbefore

/-- The machine stops in the same way on a text that goes on in another way behind the last word. -/
theorem parse_eq_of_readings {text text' : String} {strict : Bool} {as cs : List Reading}
    {r : Reading} (hreadings : readings text' = as ++ r :: cs)
    (hstop : advance (Pushdown.move strict) Pushdown.start (as ++ [r]) =
      .stop (parse text strict)) : parse text' strict = parse text strict := by
  have hrun := Pushdown.advance_readings text' strict
  rw [hreadings, ← List.singleton_append, ← List.append_assoc, advance_append, hstop] at hrun
  exact (Move.stop.inj hrun).symm

/-- **Nothing behind the last word is looked at.** If evaluating a text stops before its end is
met, then the cursor stands behind a word that it has read last; and every text that has the same
bytes up to there is parsed and evaluated to the same, with the same errors and positions. If the
word is a run of digits, then it must not be longer in the other text. -/
theorem evaluate_eq_of_extract_eq {text : String} {strict : Bool}
    (hend : (cursorAfter text strict).exhausted = false) :
    ∃ (n : Nat) (before word : List Char),
      cursorAfter text strict = ((Cursor.ofString text).skip n).next.state ∧
      Reads word (cursorAfter text strict).position ((Cursor.ofString text).skip n).next.result ∧
      (cursorAfter text strict).HasRead text.toList before word ∧
      ∀ text' : String,
        text'.toByteArray.extract 0 (cursorAfter text strict).offset =
          text.toByteArray.extract 0 (cursorAfter text strict).offset →
        ((∀ c ∈ word, c.isDigit = true) → ∀ after, text'.toList = before ++ word ++ after →
          ∀ d ∈ after.head?, d.isDigit = false) →
        evaluate text' strict = evaluate text strict ∧ parse text' strict = parse text strict := by
  obtain ⟨n, hn⟩ := exists_cursorAfter_eq text strict
  have hresult : ((Cursor.ofString text).skip n).next.result ≠ .ok .endOfInput := by
    rw [Ne, ← Cursor.exhausted_next_iff, ← hn, hend]
    exact Bool.false_ne_true
  obtain ⟨start, hstands⟩ := Cursor.exists_stands_skip text n
  obtain ⟨blanks, word, hread, hreads⟩ := hstands.exists_hasRead hresult
  rw [← hn] at hread hreads
  refine ⟨n, start ++ blanks, word, hn, hreads, hread, fun text' hbytes hdigits => ?_⟩
  rw [hread.stands.offset_eq] at hbytes
  obtain ⟨after, hafter⟩ := exists_append_of_extract hread.stands.text_eq hbytes
  -- only a word that ends in a digit could be longer in the other text
  have hseparate : Separate word after := fun c hc d hd hdigit =>
    hdigits (fun e he => hreads.isDigit (List.mem_of_getLast? hc) hdigit he) after hafter d hd
  obtain ⟨as, r, bs, hreadings, hposition, hstop⟩ := exists_stop_at_cursor text strict
  obtain ⟨cs, hcs⟩ :=
    exists_readings_eq_of_hasRead hread hreads.ne_nil hafter hseparate hreadings hposition
  have hparse := parse_eq_of_readings hcs hstop
  exact ⟨by rw [evaluate_eq_bind, evaluate_eq_bind, hparse], hparse⟩

/-- The literal after a sum is read, and what stands behind the literal is not. -/
theorem evaluate_eq_of_extract_eq_sum :
    (cursorAfter "1+2 34 ?" false).exhausted = false ∧
    (cursorAfter "1+2 34 ?" false).offset = 6 ∧
    evaluate "1+2 34*(" false = evaluate "1+2 34 ?" false ∧
    parse "1+2 34*(" false = parse "1+2 34 ?" false := by
  have hend : (cursorAfter "1+2 34 ?" false).exhausted = false := by decide +kernel
  have hoffset : (cursorAfter "1+2 34 ?" false).offset = 6 := by decide +kernel
  have hrest : (cursorAfter "1+2 34 ?" false).rest = [' ', '?'] := by decide +kernel
  obtain ⟨n, before, word, -, -, hread, hsame⟩ := evaluate_eq_of_extract_eq hend
  have hword : before ++ word = ['1', '+', '2', ' ', '3', '4'] := by
    have htext := hread.text_eq
    rw [hrest, ← List.append_assoc] at htext
    change ['1', '+', '2', ' ', '3', '4'] ++ [' ', '?'] = _ at htext
    exact (List.append_cancel_right htext).symm
  refine ⟨hend, hoffset, hsame "1+2 34*(" ?_ fun _ after hafter d hd => ?_⟩
  · rw [hoffset]
    rfl
  · rw [hword] at hafter
    change ['1', '+', '2', ' ', '3', '4'] ++ ['*', '('] = _ at hafter
    obtain rfl := List.append_cancel_left hafter
    obtain rfl : '*' = d := by simpa using hd
    decide

end Calculator
