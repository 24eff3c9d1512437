import Calculator.Proofs.Discipline
import Calculator.Proofs.Places
import Calculator.Proofs.Tokenizing

/-!
# Reading again and again

A reader can be called as often as one likes, whatever the calls before have given. It goes through
the readings of the text, one a call, and each is found behind the one before. There are not more
words than characters, so that the end comes soon; and the end is there to stay: the cursor does
not move any more, and nothing more is recorded.

So a loop that reads up to the end needs no other bound than the text.

## Main definitions

* `Cursor.recorded`: what a number of calls record.
* `Cursor.tokensWithin`: the loop that reads the tokens of a text, with a bound on the calls.

## Main results

* `Cursor.reading_skip`, `Cursor.exhausted_skip`: what a call gives after any number of calls.
* `Cursor.countP_recorded_le`: the end is recorded once.
* `Cursor.tokensWithin_eq`: the loop comes to an end.
* `reading_goes_on_to_the_end`: the calls of a reader.
-/

namespace Calculator

/-- There are not more words than characters. -/
theorem length_wordsAt_le (p : Nat) (cs : List Char) : (wordsAt p cs).length ≤ cs.length := by
  fun_induction wordsAt p cs with
  | case1 p => simp
  | case2 p c cs _ ih => exact Nat.le_succ_of_le ih
  | case3 p c cs _ hle ih => exact Nat.succ_le_succ (ih.trans hle)

/-- The event says that the end was met. -/
def Event.isEnd : Event → Bool
  | .reachedEnd _ => true
  | _ => false

namespace Cursor

variable {c : Cursor} {n : Nat}

/-! ### One call after others -/

/-- **The calls go through the readings.** -/
theorem reading_skip (h : n < c.readings.length) : (skip n c).reading = c.readings[n] := by
  induction n generalizing c with
  | zero =>
    by_cases hx : c.next.state.exhausted = true
    · simp [readings_of_exhausted_next hx, skip]
    · simp [readings_of_not_exhausted_next hx, skip]
  | succ n ih =>
    by_cases hx : c.next.state.exhausted = true
    · simp [readings_of_exhausted_next hx] at h
    · have hlist := readings_of_not_exhausted_next hx
      simp only [hlist, List.length_cons, Nat.succ_lt_succ_iff] at h
      simp only [hlist, List.getElem_cons_succ]
      exact ih h

theorem skip_add (m n : Nat) (c : Cursor) : skip (m + n) c = skip n (skip m c) := by
  induction m generalizing c with
  | zero => rw [Nat.zero_add, skip]
  | succ m ih => rw [Nat.succ_add, skip, skip, ih]

/-- Once the end was met, the calls change nothing. -/
theorem skip_of_exhausted (h : c.exhausted = true) (n : Nat) : skip n c = c := by
  induction n with
  | zero => rfl
  | succ n ih =>
    rw [skip_succ, ih, next_of_exhausted h]
    rfl

/-- **After as many calls as there are readings the end was met.** -/
theorem exhausted_skip (h : c.readings.length ≤ n) : (skip n c).exhausted = true := by
  induction n generalizing c with
  | zero => exact absurd (List.length_eq_zero_iff.mp (Nat.le_zero.mp h)) c.readings_ne_nil
  | succ n ih =>
    by_cases hx : c.next.state.exhausted = true
    · rw [skip, skip_of_exhausted hx]
      exact hx
    · rw [readings_of_not_exhausted_next hx, List.length_cons] at h
      exact ih (Nat.le_of_succ_le_succ h)

/-! ### What calls record -/

/-- What a number of calls record, errors passed over. -/
def recorded : Nat → Cursor → List Event
  | 0, _ => []
  | n + 1, c => c.next.log ++ recorded n c.next.state

/-- A call records the end if it is the one that meets it. -/
theorem countP_log_next (c : Cursor) :
    c.next.log.countP Event.isEnd =
      if c.exhausted = false ∧ c.next.state.exhausted = true then 1 else 0 := by
  cases hx : c.exhausted with
  | true => simp [next_of_exhausted hx, Outcome.ok, Logged.ok]
  | false =>
    cases hread : c.reading with
    | error e =>
      have hresult : c.next.result = .error e := map_eq_error_iff.mp hread
      have hgoes : c.next.state.exhausted ≠ true := by
        rw [Ne, c.exhausted_next_iff, hresult]
        intro h
        cases h
      simp [log_next_of_error hresult, hgoes]
    | ok l =>
      have hresult := (reading_eq_ok_iff.mp hread).1
      have hiff := c.exhausted_next_iff
      rw [hresult, Except.ok.injEq] at hiff
      rw [log_next_of_ok hx hread, Event.found]
      by_cases hend : l.token = .endOfInput <;> simp [hend, hiff, Event.isEnd]

/-- **The end is recorded once**, and not at all when it was met before. -/
theorem countP_recorded_le (n : Nat) (c : Cursor) :
    (recorded n c).countP Event.isEnd ≤ if c.exhausted = true then 0 else 1 := by
  induction n generalizing c with
  | zero => exact Nat.zero_le _
  | succ n ih =>
    rw [recorded, List.countP_append, countP_log_next]
    have hrest := ih c.next.state
    cases hx : c.exhausted with
    | true =>
      have hnext : c.next.state.exhausted = true := by
        rw [next_of_exhausted hx]
        exact hx
      simpa [hnext] using hrest
    | false =>
      cases hnext : c.next.state.exhausted with
      | true =>
        rw [hnext, if_pos rfl] at hrest
        rw [if_pos ⟨rfl, rfl⟩, if_neg Bool.false_ne_true]
        omega
      | false => simpa [hnext] using hrest

/-! ### The loop -/

/-- Reads tokens up to the end of the text, or up to the first error, with at most `n` calls;
`none` if these are not enough. -/
def tokensWithin : Nat → Cursor → Option (Except LexError (List Token))
  | 0, _ => none
  | n + 1, c =>
    match c.next.result with
    | .error e => some (.error e)
    | .ok .endOfInput => some (.ok [])
    | .ok token => (tokensWithin n c.next.state).map (Except.map (token :: ·))

/-- **The loop comes to an end**: there need be no more calls than there are readings. -/
theorem tokensWithin_eq (h : c.readings.length ≤ n) :
    tokensWithin n c = some (tokensOf c.readings.dropLast) := by
  induction n generalizing c with
  | zero => exact absurd (List.length_eq_zero_iff.mp (Nat.le_zero.mp h)) c.readings_ne_nil
  | succ n ih =>
    cases hresult : c.next.result with
    | error e =>
      rw [readings_of_error hresult, List.dropLast_cons_of_ne_nil (readings_ne_nil _)]
      simp only [tokensWithin, hresult, tokensOf]
    | ok t =>
      by_cases hend : t = .endOfInput
      · rw [hend] at hresult
        rw [readings_of_exhausted_next (c.exhausted_next_iff.mpr hresult)]
        simp only [tokensWithin, hresult]
        rfl
      · rw [readings_of_token hresult hend] at h ⊢
        rw [List.dropLast_cons_of_ne_nil (readings_ne_nil _), tokensOf,
          ← Option.map_some (f := Except.map (t :: ·)),
          ← ih (Nat.le_of_succ_le_succ h)]
        cases t <;> simp_all [tokensWithin]

end Cursor

/-! ### Texts -/

/-- The call of the reader of a text that comes after `n` others. -/
def callAfter (text : String) (n : Nat) : Outcome LexError Cursor Token :=
  (Cursor.skip n (.ofString text)).next

variable {text : String} {n : Nat}

theorem length_readings (text : String) :
    (Cursor.ofString text).readings.length = (wordsAt 0 text.toList).length + 1 := by
  have hreadings : (Cursor.ofString text).readings = _ := readings_eq text
  rw [hreadings, List.length_append, List.length_singleton]

/-- **The first calls report the words of the text.** -/
theorem callAfter_of_lt (h : n < (wordsAt 0 text.toList).length) :
    ((callAfter text n).result, (callAfter text n).state.position) =
      (wordsAt 0 text.toList)[n].report := by
  have hreadings : (Cursor.ofString text).readings = _ := readings_eq text
  have hlt : n < (Cursor.ofString text).readings.length := by
    rw [length_readings]
    omega
  have hreading := Cursor.reading_skip hlt
  simp only [hreadings, List.getElem_append_left h] at hreading
  rw [← hreading, Cursor.report_reading]
  rfl

/-- **The next call reports the end.** -/
theorem callAfter_words (text : String) :
    ((callAfter text (wordsAt 0 text.toList).length).result,
      (callAfter text (wordsAt 0 text.toList).length).state.position) =
      (.ok .endOfInput, text.utf8ByteSize) := by
  have hreadings : (Cursor.ofString text).readings = _ := readings_eq text
  have hreading := Cursor.reading_skip (c := .ofString text) (n := (wordsAt 0 text.toList).length)
    (by rw [length_readings]; omega)
  simp only [hreadings, List.getElem_concat_length] at hreading
  have hreport := congrArg Reading.report hreading
  rwa [Cursor.report_reading] at hreport

/-- **After that nothing changes.** -/
theorem callAfter_of_gt (h : (wordsAt 0 text.toList).length < n) :
    callAfter text n = .ok .endOfInput (callAfter text (wordsAt 0 text.toList).length).state := by
  have hx : (Cursor.skip ((wordsAt 0 text.toList).length + 1) (.ofString text)).exhausted = true :=
    Cursor.exhausted_skip (by rw [length_readings])
  obtain ⟨k, rfl⟩ := Nat.exists_eq_add_of_le (Nat.succ_le_of_lt h)
  rw [callAfter, callAfter, Nat.succ_eq_add_one, Cursor.skip_add, Cursor.skip_of_exhausted hx,
    Cursor.next_of_exhausted hx, Cursor.skip_succ]

/-- What a word is reported as is not the end, and an error has the position that is reported. -/
theorem report_ne_end {r : Reading} {p : Nat} {cs : List Char} (h : r ∈ wordsAt p cs) :
    r.report.1 ≠ .ok .endOfInput ∧ ∀ e, r.report.1 = .error e → e.position = r.report.2 := by
  cases r with
  | ok l =>
    refine ⟨fun hend => ?_, nofun⟩
    exact token_ne_endOfInput_of_mem_wordsAt h (Except.ok.inj hend)
  | error e =>
    refine ⟨nofun, fun d hd => ?_⟩
    obtain rfl : e = d := Except.error.inj hd
    rfl

/-- A word begins at the boundary of a character. -/
theorem isValid_of_mem_wordsAt {r : Reading} (h : r ∈ wordsAt 0 text.toList) :
    (⟨r.position⟩ : String.Pos.Raw).IsValid text := by
  obtain ⟨before, word, after, htext, hposition, -⟩ := exists_word_of_mem_wordsAt h
  have hsize := byteLength_toList (String.ofList before)
  rw [String.toList_ofList] at hsize
  rw [String.Pos.Raw.isValid_iff_exists_append]
  refine ⟨String.ofList before, String.ofList (word ++ after), ?_, ?_⟩
  · rw [← String.ofList_append, ← htext, String.ofList_toList]
  · rw [← hposition, hsize]
    rfl

/-- **The calls of a reader.** There is a number of calls that each give a word, spelled well or
not: it is found in the text, at the boundary of a character, behind all words before it. There are
not more of them than characters. The call after them meets the end, at the length of the text, and
from then on every call gives the end again, changes nothing and records nothing. So the end is
recorded once at most, and the loop that reads the tokens of the text stops in time. -/
theorem reading_goes_on_to_the_end (text : String) :
    (∃ n ≤ text.length,
      (∀ m < n, (callAfter text m).result ≠ .ok .endOfInput ∧
        (∀ e, (callAfter text m).result = .error e →
          e.position = (callAfter text m).state.position) ∧
        (∀ l < m, (callAfter text l).state.position < (callAfter text m).state.position) ∧
        (callAfter text m).state.position < text.utf8ByteSize ∧
        (⟨(callAfter text m).state.position⟩ : String.Pos.Raw).IsValid text) ∧
      (callAfter text n).result = .ok .endOfInput ∧
      (callAfter text n).state.position = text.utf8ByteSize ∧
      ∀ m > n, callAfter text m = .ok .endOfInput (callAfter text n).state) ∧
    (∀ m, ((Cursor.ofString text).recorded m).countP Event.isEnd ≤ 1) ∧
    (Cursor.ofString text).tokensWithin (text.length + 1) = some (tokenize text) := by
  have hlength : (wordsAt 0 text.toList).length ≤ text.length := length_wordsAt_le 0 text.toList
  have hend := Prod.mk.inj (callAfter_words text)
  refine ⟨⟨(wordsAt 0 text.toList).length, hlength, fun m hm => ?_, hend.1, hend.2,
    fun m hm => callAfter_of_gt hm⟩, fun m => ?_, ?_⟩
  · obtain ⟨hresult, hposition⟩ := Prod.mk.inj (callAfter_of_lt hm)
    have hmem := List.getElem_mem hm
    obtain ⟨hne, herror⟩ := report_ne_end hmem
    rw [hresult, hposition]
    refine ⟨hne, herror, fun l hl => ?_, ?_, isValid_of_mem_wordsAt hmem⟩
    · rw [(Prod.mk.inj (callAfter_of_lt (hl.trans hm))).2]
      exact List.pairwise_iff_getElem.mp (pairwise_position_wordsAt 0 text.toList) l m _ hm hl
    · exact position_lt_of_mem_words hmem
  · exact Cursor.countP_recorded_le m _
  · rw [Cursor.tokensWithin_eq (by rw [length_readings]; omega), tokenize, tokenizeLogged,
      Cursor.result_tokens]

end Calculator
