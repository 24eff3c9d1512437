import Mathlib.Data.List.TakeWhile
import Calculator.Proofs.Readings
import Calculator.Proofs.Relocation

/-!
# The readings of a text

What is read from a text is a function of the text and of the offset where it begins. `wordsAt` is
that function; it leaves the end out, and this is what makes it a homomorphism: the readings of
two texts put together are those of the first and then those of the second, provided that the
border does not cut a run of digits in two. Errors of spelling do not disturb this, since reading
goes on right after them.

## Main definitions

* `wordsAt`: the readings of a text that begins at an offset, without the end.
* `Separate`: no run of digits crosses the border between two texts.
* `Blank`: a text of nothing but blanks.

## Main results

* `readings_eq`, `words_of_readings`: what is read from a text are its words and its end.
* `wordsAt_append`: the words of two texts put together.
* `pairwise_position_readings`: readings are found one after the other.
* `map_wordsAt`: the words of a text read at another offset.
-/

namespace Calculator

/-- Moves a reading. -/
def Reading.mapPosition (f : Nat → Nat) : Reading → Reading
  | .ok l => .ok (l.mapPosition f)
  | .error e => .error (e.mapPosition f)

/-- Where a reading was found. -/
def Reading.position : Reading → Nat
  | .ok l => l.position
  | .error e => e.position

/-- The reading of a word at a position; `c` is the first character of the word. -/
def wordReading (c : Char) (word : List Char) (p : Nat) : Reading :=
  (Token.ofWord c word p).map fun token => ⟨token, p⟩

/-- The readings of a text that begins at an offset, without the end. -/
def wordsAt (p : Nat) : List Char → List Reading
  | [] => []
  | c :: cs =>
    if isBlank c then wordsAt (p + c.utf8Size) cs
    else
      have := length_splitWord_snd_le c cs
      wordReading c (splitWord c cs).1 p ::
        wordsAt (p + byteLength (splitWord c cs).1) (splitWord c cs).2
termination_by cs => cs.length

@[simp] theorem wordsAt_nil (p : Nat) : wordsAt p [] = [] := by
  rw [wordsAt]

theorem wordsAt_of_blank {c : Char} (h : isBlank c = true) (p : Nat) (cs : List Char) :
    wordsAt p (c :: cs) = wordsAt (p + c.utf8Size) cs := by
  rw [wordsAt, if_pos h]

theorem wordsAt_of_word {c : Char} (h : isBlank c = false) (p : Nat) (cs : List Char) :
    wordsAt p (c :: cs) = wordReading c (splitWord c cs).1 p ::
      wordsAt (p + byteLength (splitWord c cs).1) (splitWord c cs).2 := by
  rw [wordsAt, if_neg (by simp [h])]

/-! ### Signs and digits -/

/-- A sign is a word of one byte, whatever follows it. -/
theorem wordsAt_sign {c : Char} {t : Token} (h : Token.ofSign? c = some t) (p : Nat)
    (cs : List Char) : wordsAt p (c :: cs) = .ok ⟨t, p⟩ :: wordsAt (p + 1) cs := by
  rw [Token.ofSign?.eq_def] at h
  split at h <;> cases h <;> exact wordsAt_of_word (by decide) p cs

/-- A text of digits is one word. -/
theorem wordsAt_digits {cs : List Char} (hne : cs ≠ []) (hdigits : ∀ c ∈ cs, c.isDigit = true)
    (p : Nat) : wordsAt p cs = [(Token.ofDigits cs p).map fun token => ⟨token, p⟩] := by
  obtain ⟨c, cs, rfl⟩ := List.exists_cons_of_ne_nil hne
  have hc : c.isDigit = true := hdigits c List.mem_cons_self
  have hcs : ∀ d ∈ cs, d.isDigit = true := fun d hd => hdigits d (List.mem_cons_of_mem c hd)
  have hsplit : splitWord c cs = (c :: cs, []) := by
    rw [splitWord, if_pos hc, List.takeWhile_eq_self_iff.mpr hcs,
      List.dropWhile_eq_nil_iff.mpr hcs]
  rw [wordsAt_of_word (isBlank_eq_false_of_isDigit hc), hsplit, wordsAt_nil, wordReading,
    Token.ofWord, if_pos hc]

/-! ### Cursors -/

theorem Cursor.eq_nil_of_false {cs : List Char} (h : false = true) : cs = [] := by cases h

/-- The cursor that is about to read a text that begins at an offset. -/
def Cursor.before (p : Nat) (cs : List Char) : Cursor := ⟨cs, p, p, false, Cursor.eq_nil_of_false⟩

/-- Of a cursor that has not met the end, only the unread text and its offset matter. -/
theorem Cursor.readings_eq_before {c : Cursor} (h : c.exhausted = false) :
    c.readings = (Cursor.before c.offset c.rest).readings := by
  have hnext : c.next = (Cursor.before c.offset c.rest).next := by
    simp only [Cursor.next, h, Cursor.before, Cursor.start, Bool.false_eq_true, if_false]
  exact Cursor.readings_congr (by rw [hnext]) (by rw [hnext])

theorem Cursor.readings_before_nil (p : Nat) :
    (Cursor.before p []).readings = [.ok ⟨.endOfInput, p⟩] := by
  have hnext := Cursor.next_of_blank (c := Cursor.before p []) rfl rfl
  rw [Cursor.readings_of_exhausted_next (by rw [hnext]; rfl), Cursor.reading, hnext]
  rfl

theorem Cursor.readings_before_of_blank {c : Char} (h : isBlank c = true) (p : Nat)
    (cs : List Char) :
    (Cursor.before p (c :: cs)).readings = (Cursor.before (p + c.utf8Size) cs).readings := by
  have hnext : (Cursor.before p (c :: cs)).next = (Cursor.before (p + c.utf8Size) cs).next := by
    simp [Cursor.next, Cursor.before, Cursor.start, h, Nat.add_assoc]
  exact Cursor.readings_congr (by rw [hnext]) (by rw [hnext])

theorem Cursor.readings_before_of_word {c : Char} (h : isBlank c = false) (p : Nat)
    (cs : List Char) :
    (Cursor.before p (c :: cs)).readings = wordReading c (splitWord c cs).1 p ::
      (Cursor.before (p + byteLength (splitWord c cs).1) (splitWord c cs).2).readings := by
  have hrest : (Cursor.before p (c :: cs)).rest.dropWhile isBlank = c :: cs := by
    simp [Cursor.before, h]
  have hstart : (Cursor.before p (c :: cs)).start = p := by
    simp [Cursor.before, Cursor.start, h]
  obtain ⟨hresult, hstate⟩ := Cursor.next_of_word hrest
  have hgoes : (Cursor.before p (c :: cs)).next.state.exhausted = false := by
    rw [hstate]
    rfl
  rw [Cursor.readings_of_not_exhausted_next (by simp [hgoes]), Cursor.readings_eq_before hgoes,
    Cursor.reading, hresult, hstate, hstart]
  rfl

/-- **What a cursor reads** are the words of the text before it, and the end. -/
theorem Cursor.readings_before (p : Nat) (cs : List Char) :
    (Cursor.before p cs).readings = wordsAt p cs ++ [.ok ⟨.endOfInput, p + byteLength cs⟩] := by
  fun_induction wordsAt p cs with
  | case1 p => simpa using Cursor.readings_before_nil p
  | case2 p c cs h ih => rw [Cursor.readings_before_of_blank h, ih, byteLength_cons, Nat.add_assoc]
  | case3 p c cs h _ ih =>
    have hsize := congrArg byteLength (splitWord_append c cs)
    rw [byteLength_append] at hsize
    rw [Cursor.readings_before_of_word (by simpa using h), ih, ← hsize, Nat.add_assoc,
      List.cons_append]

theorem byteLength_toList (text : String) : byteLength text.toList = text.utf8ByteSize := by
  obtain ⟨cs, rfl⟩ := text.exists_eq_ofList
  rw [String.toList_ofList]
  induction cs with
  | nil => rfl
  | cons c cs ih =>
    rw [byteLength_cons, ih, ← List.singleton_append, String.ofList_append,
      String.utf8ByteSize_append]
    simp

/-- The readings of a text are those from the place before all of it on. -/
theorem readings_eq_before (text : String) :
    readings text = (Cursor.before 0 text.toList).readings := rfl

/-- **What is read from a text** are its words, and the end at the length of the text. -/
theorem readings_eq (text : String) :
    readings text = wordsAt 0 text.toList ++ [.ok ⟨.endOfInput, text.utf8ByteSize⟩] := by
  have h := Cursor.readings_before 0 text.toList
  rwa [Nat.zero_add, byteLength_toList] at h

/-- What is read from a text up to some reading are words, and so is that reading, unless it is the
end. -/
theorem words_of_readings {text : String} {rs rest : List Reading} {r : Reading}
    (h : readings text = rs ++ r :: rest) :
    (wordsAt 0 text.toList = rs ∧ r = .ok ⟨.endOfInput, text.utf8ByteSize⟩) ∨
      ∃ others, wordsAt 0 text.toList = rs ++ r :: others := by
  rw [readings_eq] at h
  rcases rest.eq_nil_or_concat with rfl | ⟨others, s, rfl⟩
  · obtain ⟨hwords, hend⟩ := List.append_inj' h rfl
    exact .inl ⟨hwords, (List.cons.inj hend).1.symm⟩
  · rw [List.concat_eq_append, ← List.cons_append, ← List.append_assoc] at h
    exact .inr ⟨others, (List.append_inj' h rfl).1⟩

/-! ### Texts put together -/

/-- No run of digits crosses the border between two texts. -/
def Separate (us vs : List Char) : Prop :=
  ∀ c ∈ us.getLast?, ∀ d ∈ vs.head?, c.isDigit = true → d.isDigit = false

theorem Separate.of_append_left (us : List Char) {ws vs : List Char} (h : Separate (us ++ ws) vs) :
    Separate ws vs := by
  intro c hc
  refine h c ?_
  rw [Option.mem_def] at hc ⊢
  rw [List.getLast?_append, hc, Option.some_or]

/-- A text that begins with no digit can follow any other. -/
theorem separate_cons {d : Char} (h : d.isDigit = false) (us vs : List Char) :
    Separate us (d :: vs) := by
  intro c _ e he _
  obtain rfl : d = e := by simpa using he
  exact h

/-- Any text can follow one that ends with no digit. -/
theorem separate_concat {c : Char} (h : c.isDigit = false) (us vs : List Char) :
    Separate (us ++ [c]) vs := by
  intro e he d _ hdigit
  obtain rfl : c = e := by simpa using he
  rw [h] at hdigit
  cases hdigit

/-- A run of digits is the same whatever is put after the text that it is in. -/
theorem digits_append {c : Char} (hc : c.isDigit = true) {cs vs : List Char}
    (h : Separate (c :: cs) vs) :
    (cs ++ vs).takeWhile Char.isDigit = cs.takeWhile Char.isDigit ∧
      (cs ++ vs).dropWhile Char.isDigit = cs.dropWhile Char.isDigit ++ vs := by
  induction cs generalizing c with
  | nil =>
    cases vs with
    | nil => simp
    | cons d vs =>
      have hd : d.isDigit = false := h c (by simp) d (by simp) hc
      simp [hd]
  | cons d cs ih =>
    by_cases hd : d.isDigit = true
    · have := ih hd (Separate.of_append_left [c] h)
      simpa [hd] using this
    · simp [hd]

theorem splitWord_of_separate {c : Char} {cs vs : List Char} (h : Separate (c :: cs) vs) :
    splitWord c (cs ++ vs) = ((splitWord c cs).1, (splitWord c cs).2 ++ vs) := by
  by_cases hc : c.isDigit = true
  · obtain ⟨htake, hdrop⟩ := digits_append hc h
    simp only [splitWord, if_pos hc, htake, hdrop]
  · simp only [splitWord, if_neg hc]

/-- **The words of two texts put together** are those of the first and then those of the second. -/
theorem wordsAt_append {us vs : List Char} (h : Separate us vs) (p : Nat) :
    wordsAt p (us ++ vs) = wordsAt p us ++ wordsAt (p + byteLength us) vs := by
  fun_induction wordsAt p us with
  | case1 p => simp
  | case2 p c cs hblank ih =>
    rw [List.cons_append, wordsAt_of_blank hblank, ih (Separate.of_append_left [c] h),
      byteLength_cons, Nat.add_assoc]
  | case3 p c cs hblank _ ih =>
    have hword := splitWord_append c cs
    have hrest : Separate (splitWord c cs).2 vs := by
      rw [← hword] at h
      exact h.of_append_left _
    have hsize := congrArg byteLength hword
    rw [byteLength_append] at hsize
    rw [List.cons_append, wordsAt_of_word (by simpa using hblank), splitWord_of_separate h,
      ih hrest, ← hsize, Nat.add_assoc, List.cons_append]

/-- The readings of two texts put together. -/
theorem Cursor.readings_before_append {us vs : List Char} (h : Separate us vs) (p : Nat) :
    (Cursor.before p (us ++ vs)).readings =
      wordsAt p us ++ (Cursor.before (p + byteLength us) vs).readings := by
  rw [Cursor.readings_before, Cursor.readings_before, wordsAt_append h, byteLength_append,
    Nat.add_assoc, List.append_assoc]

/-! ### Blanks -/

/-- Nothing but blanks. -/
def Blank (text : String) : Prop := ∀ c ∈ text.toList, isBlank c = true

instance (text : String) : Decidable (Blank text) :=
  decidable_of_iff (text.toList.all isBlank = true) List.all_eq_true

theorem wordsAt_of_blanks {cs : List Char} (h : ∀ c ∈ cs, isBlank c = true) (p : Nat) :
    wordsAt p cs = [] := by
  induction cs generalizing p with
  | nil => exact wordsAt_nil p
  | cons c cs ih =>
    rw [wordsAt_of_blank (h c List.mem_cons_self)]
    exact ih (fun d hd => h d (List.mem_cons_of_mem c hd)) _

/-- A text that begins with a blank can follow any other. -/
theorem separate_of_blank {vs : List Char} (h : ∀ d ∈ vs.head?, isBlank d = true)
    (us : List Char) : Separate us vs :=
  fun _ _ d hd _ => isDigit_eq_false_of_isBlank (h d hd)

/-- Blanks before a text only move it. -/
theorem Cursor.readings_before_blanks {us vs : List Char} (h : ∀ c ∈ us, isBlank c = true)
    (p : Nat) :
    (Cursor.before p (us ++ vs)).readings = (Cursor.before (p + byteLength us) vs).readings := by
  have hseparate : Separate us vs := by
    intro c hc d _ hdigit
    rw [isDigit_eq_false_of_isBlank (h c (List.mem_of_getLast? hc))] at hdigit
    cases hdigit
  rw [Cursor.readings_before_append hseparate, wordsAt_of_blanks h, List.nil_append]

/-! ### Words and where they are found -/

/-- No word spells the end of the input. -/
theorem token_ne_endOfInput_of_mem_wordsAt {l : Lexeme} {p : Nat} {cs : List Char}
    (h : .ok l ∈ wordsAt p cs) : l.token ≠ .endOfInput := by
  fun_induction wordsAt p cs with
  | case1 p => exact absurd h List.not_mem_nil
  | case2 p c cs _ ih => exact ih h
  | case3 p c cs _ _ ih =>
    rcases List.mem_cons.mp h with hl | hl
    · rw [wordReading] at hl
      cases hword : Token.ofWord c (splitWord c cs).1 p with
      | ok t =>
        rw [hword] at hl
        obtain rfl := Except.ok.inj hl
        rintro rfl
        exact Token.ofWord_ne_endOfInput _ _ _ hword
      | error e =>
        rw [hword] at hl
        cases hl
    · exact ih hl

theorem position_wordReading (c : Char) (word : List Char) (p : Nat) :
    (wordReading c word p).position = p := by
  simp only [wordReading, Token.ofWord, Token.ofDigits]
  split <;> split <;> rfl

/-- Every word begins within the text. -/
theorem position_of_mem_wordsAt {r : Reading} {p : Nat} {cs : List Char} (h : r ∈ wordsAt p cs) :
    p ≤ r.position ∧ r.position < p + byteLength cs := by
  fun_induction wordsAt p cs with
  | case1 p => exact absurd h List.not_mem_nil
  | case2 p c cs hblank ih =>
    have hr := ih h
    rw [byteLength_cons]
    omega
  | case3 p c cs hblank _ ih =>
    have hsize := congrArg byteLength (splitWord_append c cs)
    have hpos := byteLength_pos (splitWord_fst_ne_nil c cs)
    rw [byteLength_append] at hsize
    rw [← hsize]
    rcases List.mem_cons.mp h with rfl | hmem
    · rw [position_wordReading]
      omega
    · have hr := ih hmem
      omega

/-- A word of a text is found within the text. -/
theorem position_lt_of_mem_words {text : String} {r : Reading} (h : r ∈ wordsAt 0 text.toList) :
    r.position < text.utf8ByteSize := by
  have hlt := (position_of_mem_wordsAt h).2
  rwa [Nat.zero_add, byteLength_toList] at hlt

/-- Each word begins after the one before it. -/
theorem pairwise_position_wordsAt (p : Nat) (cs : List Char) :
    (wordsAt p cs).Pairwise fun a b => Reading.position a < Reading.position b := by
  fun_induction wordsAt p cs with
  | case1 p => exact .nil
  | case2 p c cs hblank ih => exact ih
  | case3 p c cs hblank _ ih =>
    refine .cons (fun r hr => ?_) ih
    have hpos := byteLength_pos (splitWord_fst_ne_nil c cs)
    have hle := (position_of_mem_wordsAt hr).1
    rw [position_wordReading]
    omega

/-- **Readings are found one after the other**, the end behind every word. -/
theorem pairwise_position_readings (text : String) :
    (readings text).Pairwise fun a b => Reading.position a < Reading.position b := by
  rw [readings_eq, List.pairwise_append]
  refine ⟨pairwise_position_wordsAt 0 text.toList, List.pairwise_singleton _ _, ?_⟩
  intro r hr s hs
  obtain rfl := List.mem_singleton.mp hs
  exact position_lt_of_mem_words hr

/-! ### Texts at other offsets -/

theorem mapPosition_wordReading (f : Nat → Nat) (c : Char) (word : List Char) (p : Nat) :
    Reading.mapPosition f (wordReading c word p) = wordReading c word (f p) := by
  rw [wordReading, wordReading, Token.ofWord_map_position]
  cases Token.ofWord c word p <;> rfl

/-- **The words of a text read at another offset** are the same words, moved. The map of positions
need only be the right one within the text. -/
theorem map_wordsAt {f : Nat → Nat} {p q : Nat} {cs : List Char}
    (h : ∀ n < byteLength cs, f (p + n) = q + n) :
    (wordsAt p cs).map (Reading.mapPosition f) = wordsAt q cs := by
  fun_induction wordsAt p cs generalizing q with
  | case1 p => simp
  | case2 p c cs hblank ih =>
    rw [wordsAt_of_blank hblank]
    refine ih fun n hn => ?_
    rw [Nat.add_assoc, h (c.utf8Size + n) (by simpa using hn), Nat.add_assoc]
  | case3 p c cs hblank _ ih =>
    have hsize := congrArg byteLength (splitWord_append c cs)
    rw [byteLength_append] at hsize
    have hpos := byteLength_pos (splitWord_fst_ne_nil c cs)
    rw [wordsAt_of_word (by simpa using hblank), List.map_cons, mapPosition_wordReading]
    congr 1
    · rw [← Nat.add_zero p, h 0 (by omega), Nat.add_zero]
    · refine ih fun n hn => ?_
      rw [Nat.add_assoc, h (byteLength (splitWord c cs).1 + n) (by omega), Nat.add_assoc]

/-- The words of a text that begins at an offset are those of the text alone, moved. -/
theorem map_wordsAt_zero (p : Nat) (cs : List Char) :
    (wordsAt 0 cs).map (Reading.mapPosition (p + ·)) = wordsAt p cs :=
  map_wordsAt fun n _ => by simp only [Nat.zero_add]

/-- The readings of a text at another offset, the end among them. -/
theorem Cursor.map_readings_before {f : Nat → Nat} {p q : Nat} {cs : List Char}
    (h : ∀ n ≤ byteLength cs, f (p + n) = q + n) :
    (Cursor.before p cs).readings.map (Reading.mapPosition f) = (Cursor.before q cs).readings := by
  rw [Cursor.readings_before, Cursor.readings_before, List.map_append,
    map_wordsAt fun n hn => h n (Nat.le_of_lt hn), List.map_singleton, Reading.mapPosition,
    Lexeme.mapPosition, h _ Nat.le.refl]

end Calculator
