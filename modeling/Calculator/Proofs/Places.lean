import Calculator.Proofs.Slices

/-!
# The places of a cursor in a text

A cursor that reads a text stands behind a part of it, never inside a run of digits, and the offset
that it keeps is the length of that part. When it has read a word, the text is cut in three: what
was before the word, the word, and what has not been read. Nothing of the third part has had any
influence on what was read so far, except that it does not go on with digits after digits.

## Main definitions

* `Cursor.skip`: the cursor after a number of readings.
* `Cursor.Stands`: the cursor stands behind a part of a text.
* `Cursor.HasRead`: the cursor stands behind a word of the text, which it has read last.

## Main results

* `Cursor.Stands.exists_hasRead`: one reading.
* `Cursor.exists_stands_skip`: any number of readings.
* `Cursor.filter_position_readings_append`: what is read before some place.
-/

namespace Calculator

/-! ### Borders -/

theorem Separate.head_congr {us vs vs' : List Char} (h : Separate us vs)
    (hhead : vs'.head? = vs.head?) : Separate us vs' := by
  rw [Separate, hhead]
  exact h

/-- Only the end of the first text matters. -/
theorem Separate.append_left {us vs : List Char} (h : Separate us vs) (hne : us ≠ [])
    (ws : List Char) : Separate (ws ++ us) vs := by
  intro c hc
  refine h c ?_
  rwa [Option.mem_def, List.getLast?_append, List.getLast?_eq_some_getLast hne, Option.some_or,
    ← List.getLast?_eq_some_getLast hne] at hc

/-- Blanks at the border may be counted to either side. -/
theorem Separate.append_blanks {us ws vs : List Char} (h : Separate us (ws ++ vs))
    (hblank : ∀ c ∈ ws, isBlank c = true) : Separate (us ++ ws) vs := by
  rcases ws.eq_nil_or_concat with rfl | ⟨ws, c, rfl⟩
  · rwa [List.append_nil]
  · rw [List.concat_eq_append] at hblank ⊢
    rw [← List.append_assoc]
    exact separate_concat (isDigit_eq_false_of_isBlank (hblank c (by simp))) _ _

/-- No run of digits crosses the end of a word. -/
theorem separate_splitWord (c : Char) (cs : List Char) :
    Separate (splitWord c cs).1 (splitWord c cs).2 := by
  cases hc : c.isDigit with
  | false =>
    rw [splitWord, hc]
    exact separate_concat hc [] cs
  | true =>
    intro _ _ d hd _
    obtain ⟨ds, hds⟩ := List.head?_eq_some_iff.mp hd
    exact splitWord_maximal hc cs hds

namespace Cursor

/-- The cursor after a number of readings, errors passed over. -/
def skip : Nat → Cursor → Cursor
  | 0, c => c
  | n + 1, c => skip n c.next.state

theorem skip_succ (n : Nat) (c : Cursor) : skip (n + 1) c = (skip n c).next.state := by
  induction n generalizing c with
  | zero => rfl
  | succ n ih => exact ih c.next.state

/-- Any number of readings leave the last readings to be made. -/
theorem readings_skip_suffix (n : Nat) (c : Cursor) : (skip n c).readings <:+ c.readings := by
  induction n generalizing c with
  | zero => exact List.suffix_rfl
  | succ n ih => exact (ih c.next.state).trans c.readings_next_suffix

/-- The cursor stands behind a part of a text, and no run of digits crosses that place. -/
structure Stands (text before : List Char) (c : Cursor) : Prop where
  text_eq : text = before ++ c.rest
  offset_eq : c.offset = byteLength before
  separate : Separate before c.rest

/-- The cursor stands behind a word of a text, which it has read last. -/
structure HasRead (text before word : List Char) (c : Cursor) : Prop where
  text_eq : text = before ++ (word ++ c.rest)
  position_eq : c.position = byteLength before
  offset_eq : c.offset = byteLength before + byteLength word
  separate_word : Separate before (word ++ c.rest)
  separate_rest : Separate (before ++ word) c.rest

variable {text before word : List Char} {c : Cursor}

theorem HasRead.stands (h : HasRead text before word c) : Stands text (before ++ word) c where
  text_eq := by rw [h.text_eq, List.append_assoc]
  offset_eq := by rw [h.offset_eq, byteLength_append]
  separate := h.separate_rest

theorem stands_ofString (text : String) : Stands text.toList [] (ofString text) :=
  ⟨rfl, rfl, fun _ hc => by cases hc⟩

/-- Before the end is met there is a word to read, behind some blanks. -/
theorem exists_word (h : c.next.result ≠ .ok .endOfInput) :
    c.exhausted = false ∧ ∃ ch cs, c.rest.dropWhile isBlank = ch :: cs ∧ isBlank ch = false := by
  cases hx : c.exhausted with
  | true => exact absurd (by rw [next_of_exhausted hx]; rfl) h
  | false =>
    cases hrest : c.rest.dropWhile isBlank with
    | nil => exact absurd (by rw [next_of_blank hx hrest]) h
    | cons ch cs =>
      have hblank := List.head?_dropWhile_not isBlank c.rest
      rw [hrest] at hblank
      exact ⟨rfl, ch, cs, rfl, hblank⟩

/-- **One reading.** The cursor passes over blanks, and then over the word that it reads. -/
theorem Stands.exists_hasRead (h : Stands text before c)
    (hend : c.next.result ≠ .ok .endOfInput) :
    ∃ blanks word, HasRead text (before ++ blanks) word c.next.state ∧
      Reads word c.next.state.position c.next.result := by
  obtain ⟨-, ch, cs, hrest, hblank⟩ := exists_word hend
  obtain ⟨hresult, hstate⟩ := next_of_word hrest
  have hsplit : c.rest = c.rest.takeWhile isBlank ++ ch :: cs := by
    rw [← hrest, List.takeWhile_append_dropWhile]
  have hword : (splitWord ch cs).1 ++ c.next.state.rest = ch :: cs := by
    rw [hstate]
    exact splitWord_append ch cs
  have hstart : c.start = byteLength (before ++ c.rest.takeWhile isBlank) := by
    rw [start, h.offset_eq, byteLength_append]
  refine ⟨c.rest.takeWhile isBlank, (splitWord ch cs).1, ?_, ?_⟩
  · constructor
    · rw [hword, List.append_assoc, ← hsplit]
      exact h.text_eq
    · rw [hstate, ← hstart]
      rfl
    · rw [hstate, ← hstart]
      rfl
    · rw [hword]
      refine Separate.append_blanks ?_ fun _ => List.mem_takeWhile_imp
      rw [← hsplit]
      exact h.separate
    · rw [hstate]
      exact (separate_splitWord ch cs).append_left (splitWord_fst_ne_nil ch cs) _
  · rw [hresult, hstate]
    exact reads_splitWord hblank cs _

/-- Whatever is read, the cursor stands behind a part of the text again. -/
theorem Stands.next (h : Stands text before c) : ∃ before', Stands text before' c.next.state := by
  by_cases hend : c.next.result = .ok .endOfInput
  · cases hx : c.exhausted with
    | true => exact ⟨before, by rwa [next_of_exhausted hx]⟩
    | false =>
      cases hrest : c.rest.dropWhile isBlank with
      | nil =>
        rw [next_of_blank hx hrest]
        have hblank : c.rest.takeWhile isBlank = c.rest := by
          rw [List.takeWhile_eq_self_iff]
          exact List.dropWhile_eq_nil_iff.mp hrest
        refine ⟨text, ⟨(List.append_nil text).symm, ?_, fun _ _ _ hd => by cases hd⟩⟩
        rw [h.text_eq, byteLength_append, ← h.offset_eq, atEnd, start, hblank]
      | cons ch cs =>
        rw [(next_of_word hrest).1] at hend
        exact absurd hend (Token.ofWord_ne_endOfInput _ _ _)
  · obtain ⟨blanks, word, hread, -⟩ := h.exists_hasRead hend
    exact ⟨_, hread.stands⟩

/-- **Any number of readings** leave the cursor behind a part of the text. -/
theorem exists_stands_skip (text : String) (n : Nat) :
    ∃ before, Stands text.toList before (skip n (ofString text)) := by
  induction n with
  | zero => exact ⟨[], stands_ofString text⟩
  | succ n ih =>
    obtain ⟨before, h⟩ := ih
    rw [skip_succ]
    exact h.next

/-- Whatever is read from an offset on is found there or behind. -/
theorem le_position_of_mem_readings {r : Reading} {p : Nat} {cs : List Char}
    (h : r ∈ (Cursor.before p cs).readings) : p ≤ r.position := by
  rw [readings_before, List.mem_append, List.mem_singleton] at h
  rcases h with h | rfl
  · exact (position_of_mem_wordsAt h).1
  · exact Nat.le_add_right p _

/-- What is read from a text before some place are the words before it. -/
theorem filter_position_readings_append {us vs : List Char} (h : Separate us vs) :
    (Cursor.before 0 (us ++ vs)).readings.filter (fun r => r.position < byteLength us) =
      wordsAt 0 us := by
  have hbefore : ∀ r ∈ wordsAt 0 us, decide (Reading.position r < byteLength us) = true := by
    intro r hr
    have := (position_of_mem_wordsAt hr).2
    simpa using this
  rw [readings_before_append h, List.filter_append, List.filter_eq_self.mpr hbefore, Nat.zero_add,
    List.filter_eq_nil_iff.mpr, List.append_nil]
  intro r hr
  have := le_position_of_mem_readings hr
  simpa using this

end Cursor

end Calculator
