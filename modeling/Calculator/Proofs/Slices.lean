import Calculator.Proofs.Lexing
import Mathlib.Algebra.Group.Nat.Defs

/-!
# How reading cuts a text into words

Reading a text up to its end, and going on after errors, passes over every character of it, and over
no character twice: the text is blanks and words in turn. Each word is there for one report of the
reader, which says what was read and where. A word is a run of digits that no digit stands next to,
or one character; nothing else is ever read at once, and no word contains a blank.

This is first said of a text that begins at some offset, as `Cut`, one slice after the other. What
it means for the text as a whole is then read off: where a slice stands is how long the text before
it is, and a character that is not blank is in the slice that its place falls into.

## Main definitions

* `Cursor.report`, `Cursor.reports`: what reading gives, and the positions that it reports.
* `Slice`: a word with the blanks before it and the report about it.
* `Reads`: what a word is read as.
* `Cut`: slices that make up a text.

## Main results

* `Cursor.reports_eq`: the reports are the readings.
* `exists_cut`: every text is cut into slices.
* `Cut.existsUnique_covers`: a character that is not blank is in one slice.
* `exists_slices`: reading neither loses, invents nor splits text.
-/

namespace Calculator

/-! ### Reports -/

/-- What was read, and where the reader says that it was. -/
abbrev Report := Except LexError Token × Nat

/-- A reading as a report. -/
def Reading.report (r : Reading) : Report := (r.map Lexeme.token, r.position)

theorem report_wordReading (c : Char) (word : List Char) (p : Nat) :
    (wordReading c word p).report = (Token.ofWord c word p, p) := by
  rw [Reading.report, position_wordReading, wordReading]
  cases Token.ofWord c word p <;> rfl

namespace Cursor

/-- What is read next, and the position that is reported then. -/
def report (c : Cursor) : Report := (c.next.result, c.next.state.position)

/-- What is read and reported from here on, errors or not, up to the first end of the input. -/
def reports (c : Cursor) : List Report :=
  if h : c.next.state.exhausted = true then [c.report]
  else
    have := length_rest_next_lt (mt c.exhausted_next_iff.mpr h)
    c.report :: c.next.state.reports
termination_by c.rest.length

/-- An error stands where the reader says that it is. -/
theorem position_of_next_error {c : Cursor} {e : LexError} (h : c.next.result = .error e) :
    e.position = c.next.state.position := by
  cases hx : c.exhausted with
  | true =>
    rw [next_of_exhausted hx] at h
    cases h
  | false =>
    cases hrest : c.rest.dropWhile isBlank with
    | nil =>
      rw [next_of_blank hx hrest] at h
      cases h
    | cons ch cs =>
      obtain ⟨hresult, hstate⟩ := next_of_word hrest
      have hposition := position_wordReading ch (splitWord ch cs).1 c.start
      rw [wordReading, ← hresult, h] at hposition
      rw [hstate]
      exact hposition

theorem report_reading (c : Cursor) : c.reading.report = c.report := by
  rw [Reading.report, report, reading]
  cases h : c.next.result with
  | ok t => rfl
  | error e => exact congrArg _ (position_of_next_error h)

/-- **The reports are the readings.** -/
theorem reports_eq (c : Cursor) : c.reports = c.readings.map Reading.report := by
  fun_induction reports c with
  | case1 c h => rw [readings_of_exhausted_next h, List.map_singleton, report_reading]
  | case2 c h _ ih => rw [readings_of_not_exhausted_next h, List.map_cons, report_reading, ih]

end Cursor

/-! ### Words -/

/-- The characters that are words and the tokens that they spell. -/
def signs : List (Char × Token) :=
  [('+', .plus), ('-', .minus), ('*', .star), ('/', .slash), ('(', .leftParen),
    (')', .rightParen)]

/-- What a word at a position is read as: a run of digits as its value or, if that is too large, as
an error that has the run; a sign as its token; and any other character that is not blank as an
error that has the character. -/
inductive Reads : List Char → Nat → Except LexError Token → Prop where
  | number {word : List Char} {value : Integer} (p : Nat) (hne : word ≠ [])
    (hdigits : ∀ d ∈ word, d.isDigit = true)
    (hvalue : value.toInt = Nat.ofDigitChars 10 word 0) : Reads word p (.ok (.number value))
  | integerTooLarge {word : List Char} (p : Nat) (hne : word ≠ [])
    (hdigits : ∀ d ∈ word, d.isDigit = true) (hvalue : 2 ^ 63 ≤ Nat.ofDigitChars 10 word 0) :
    Reads word p (.error (.integerTooLarge (String.ofList word) p))
  | sign {c : Char} {t : Token} (p : Nat) (h : (c, t) ∈ signs) : Reads [c] p (.ok t)
  | invalidCharacter {c : Char} (p : Nat) (hblank : isBlank c = false) (hdigit : c.isDigit = false)
    (hsign : c ∉ ['+', '-', '*', '/', '(', ')']) :
    Reads [c] p (.error (.invalidCharacter c p))

theorem ofSign?_eq_some_iff {c : Char} {t : Token} :
    Token.ofSign? c = some t ↔ (c, t) ∈ signs := by
  rw [Token.ofSign?.eq_def]
  split <;> simp_all [signs, eq_comm]

theorem ofSign?_eq_none_iff {c : Char} :
    Token.ofSign? c = none ↔ c ∉ ['+', '-', '*', '/', '(', ')'] := by
  rw [Token.ofSign?.eq_def]
  split <;> simp_all

/-- Every word is read as one of these. -/
theorem reads_splitWord {c : Char} (hblank : isBlank c = false) (cs : List Char) (p : Nat) :
    Reads (splitWord c cs).1 p (Token.ofWord c (splitWord c cs).1 p) := by
  cases hc : c.isDigit with
  | true =>
    have hne := splitWord_fst_ne_nil c cs
    have hdigits : ∀ d ∈ (splitWord c cs).1, d.isDigit = true := by
      rw [splitWord, if_pos hc]
      intro d hd
      rcases List.mem_cons.mp hd with rfl | hd
      · exact hc
      · exact List.mem_takeWhile_imp hd
    rw [Token.ofWord, if_pos hc, Token.ofDigits]
    split
    · next value hvalue =>
      exact .number p hne hdigits (Integer.ofInt?_eq_some_iff.mp hvalue)
    · next hvalue =>
      rw [Integer.ofInt?_eq_none_iff] at hvalue
      exact .integerTooLarge p hne hdigits (by omega)
  | false =>
    have hword : (splitWord c cs).1 = [c] := by rw [splitWord, hc]; rfl
    rw [hword, Token.ofWord, hc, if_neg (by decide)]
    cases hsign : Token.ofSign? c with
    | some t => exact .sign p (ofSign?_eq_some_iff.mp hsign)
    | none => exact .invalidCharacter p hblank hc (ofSign?_eq_none_iff.mp hsign)

theorem Reads.ne_nil {word : List Char} {p : Nat} {outcome : Except LexError Token}
    (h : Reads word p outcome) : word ≠ [] := by
  cases h with
  | number _ hne | integerTooLarge _ hne => exact hne
  | sign | invalidCharacter => exact List.cons_ne_nil _ _

/-- A word with a digit in it is a run of digits. -/
theorem Reads.isDigit {word : List Char} {p : Nat} {outcome : Except LexError Token}
    (h : Reads word p outcome) {c d : Char} (hc : c ∈ word) (hdigit : c.isDigit = true)
    (hd : d ∈ word) : d.isDigit = true := by
  cases h with
  | number _ _ hdigits | integerTooLarge _ _ hdigits => exact hdigits d hd
  | sign | invalidCharacter =>
    rw [List.mem_singleton] at hc hd
    rwa [hd, ← hc]

/-! ### Slices -/

/-- A word of a text, the blanks before it, and the report about it. -/
structure Slice where
  blanks : List Char
  word : List Char
  outcome : Except LexError Token
  position : Nat

namespace Slice

/-- The part of the text that is between the word before and the end of the word. -/
def text (s : Slice) : List Char := s.blanks ++ s.word

def report (s : Slice) : Report := (s.outcome, s.position)

/-- A place of the text is in the word. -/
def Covers (s : Slice) (n : Nat) : Prop := s.position ≤ n ∧ n < s.position + byteLength s.word

end Slice

/-- The text that is made of slices and of what comes after them. -/
def joined (slices : List Slice) (last : List Char) : List Char :=
  slices.flatMap Slice.text ++ last

@[simp] theorem joined_nil (last : List Char) : joined [] last = last := rfl

@[simp] theorem joined_cons (s : Slice) (slices : List Slice) (last : List Char) :
    joined (s :: slices) last = s.blanks ++ (s.word ++ joined slices last) := by
  simp [joined, Slice.text]

/-- Slices one after the other, and blanks at the end, make up a text that begins at an offset. -/
inductive Cut : Nat → List Slice → List Char → Prop where
  | last {p : Nat} {last : List Char} (hlast : ∀ c ∈ last, isBlank c = true) : Cut p [] last
  | slice {p : Nat} {s : Slice} {slices : List Slice} {last : List Char}
    (hblanks : ∀ c ∈ s.blanks, isBlank c = true)
    (hposition : s.position = p + byteLength s.blanks)
    (hreads : Reads s.word s.position s.outcome)
    (hmaximal : (∀ c ∈ s.word, c.isDigit = true) →
      ∀ d ∈ (joined slices last).head?, d.isDigit = false)
    (hrest : Cut (s.position + byteLength s.word) slices last) : Cut p (s :: slices) last

namespace Cut

variable {p : Nat} {slices : List Slice} {last : List Char}

/-- More blanks may come first. -/
theorem cons_blank {c : Char} (hc : isBlank c = true) (h : Cut (p + c.utf8Size) slices last) :
    ∃ slices' last', Cut p slices' last' ∧ joined slices' last' = c :: joined slices last ∧
      slices'.map Slice.report = slices.map Slice.report := by
  cases h with
  | last hlast =>
    refine ⟨[], c :: last, .last ?_, rfl, rfl⟩
    intro d hd
    rcases List.mem_cons.mp hd with rfl | hd
    · exact hc
    · exact hlast d hd
  | @slice _ s slices _ hblanks hposition hreads hmaximal hrest =>
    refine ⟨{ s with blanks := c :: s.blanks } :: slices, last, ?_, by simp, rfl⟩
    refine .slice ?_ ?_ hreads hmaximal hrest
    · intro d hd
      rcases List.mem_cons.mp hd with rfl | hd
      · exact hc
      · exact hblanks d hd
    · rw [byteLength_cons, ← Nat.add_assoc]
      exact hposition

end Cut

/-- **Every text is cut into slices**, and the reports about them are the readings of the text. -/
theorem exists_cut (p : Nat) (cs : List Char) :
    ∃ slices last, Cut p slices last ∧ joined slices last = cs ∧
      (wordsAt p cs).map Reading.report = slices.map Slice.report := by
  fun_induction wordsAt p cs with
  | case1 p => exact ⟨[], [], .last (by simp), rfl, rfl⟩
  | case2 p c cs hblank ih =>
    obtain ⟨slices, last, hcut, rfl, hreports⟩ := ih
    obtain ⟨slices', last', hcut', hjoined, hreports'⟩ := hcut.cons_blank hblank
    exact ⟨slices', last', hcut', hjoined, hreports.trans hreports'.symm⟩
  | case3 p c cs hblank _ ih =>
    obtain ⟨slices, last, hcut, hjoined, hreports⟩ := ih
    have hblank' : isBlank c = false := by simpa using hblank
    refine ⟨⟨[], (splitWord c cs).1, Token.ofWord c (splitWord c cs).1 p, p⟩ :: slices, last,
      .slice (by simp) rfl (reads_splitWord hblank' cs p) ?_ hcut, ?_, ?_⟩
    · intro hdigits d hd
      have hc : c.isDigit = true := hdigits c (by
        rw [splitWord]
        split <;> simp)
      rw [hjoined] at hd
      obtain ⟨ds, hds⟩ : ∃ ds, (splitWord c cs).2 = d :: ds := by
        cases hsplit : (splitWord c cs).2 with
        | nil => rw [hsplit] at hd; cases hd
        | cons d' ds =>
          rw [hsplit] at hd
          obtain rfl := Option.some.inj hd
          exact ⟨ds, rfl⟩
      exact splitWord_maximal hc cs hds
    · rw [joined_cons, hjoined]
      exact splitWord_append c cs
    · rw [List.map_cons, List.map_cons, hreports, report_wordReading]
      rfl

namespace Cut

variable {p : Nat} {before slices after : List Slice} {last : List Char} {s : Slice}

/-- From a slice on, what is left is cut as well. -/
theorem of_append (h : Cut p (before ++ slices) last) :
    Cut (p + byteLength (before.flatMap Slice.text)) slices last := by
  induction before generalizing p with
  | nil => exact h
  | cons s before ih =>
    cases h with
    | slice _ hposition _ _ hrest =>
      have hcut := ih hrest
      rw [hposition, Nat.add_assoc, Nat.add_assoc] at hcut
      simpa [Slice.text] using hcut

theorem reads (h : Cut p slices last) (hs : s ∈ slices) :
    (∀ c ∈ s.blanks, isBlank c = true) ∧ Reads s.word s.position s.outcome := by
  obtain ⟨before, after, rfl⟩ := List.append_of_mem hs
  cases h.of_append with
  | slice hblanks _ hreads _ _ => exact ⟨hblanks, hreads⟩

theorem last_isBlank (h : Cut p slices last) : ∀ c ∈ last, isBlank c = true := by
  rw [← List.append_nil slices] at h
  cases h.of_append with
  | last hlast => exact hlast

/-- A slice stands where the text before it ends. -/
theorem position_eq (h : Cut p (before ++ s :: after) last) :
    s.position = p + byteLength (before.flatMap Slice.text ++ s.blanks) := by
  cases h.of_append with
  | slice _ hposition _ _ _ => rw [hposition, byteLength_append, Nat.add_assoc]

/-- No digit comes after a run of digits. -/
theorem not_digit_after (h : Cut p (before ++ s :: after) last)
    (hdigits : ∀ c ∈ s.word, c.isDigit = true) :
    ∀ d ∈ (joined after last).head?, d.isDigit = false := by
  cases h.of_append with
  | slice _ _ _ hmaximal _ => exact hmaximal hdigits

/-- No digit comes before a run of digits: it would belong to a run that goes on. -/
theorem not_digit_before (h : Cut p (before ++ s :: after) last)
    (hdigits : ∀ c ∈ s.word, c.isDigit = true) :
    ∀ d ∈ (before.flatMap Slice.text ++ s.blanks).getLast?, d.isDigit = false := by
  intro d hd
  obtain ⟨hblanks, hreads⟩ := h.reads (s := s) (by simp)
  rcases s.blanks.eq_nil_or_concat with hnil | ⟨bs, b, hbs⟩
  · rcases before.eq_nil_or_concat with rfl | ⟨ts, t, rfl⟩
    · simp [hnil] at hd
    · have htreads := (h.reads (s := t) (by simp)).2
      have hlast : t.word.getLast? = some d := by
        have := htreads.ne_nil
        simpa [hnil, Slice.text, List.getLast?_append, this] using hd
      have hmem := List.mem_of_getLast? hlast
      cases hdigit : d.isDigit with
      | false => rfl
      | true =>
        obtain ⟨c, cs, hword⟩ := List.exists_cons_of_ne_nil hreads.ne_nil
        have hcut : Cut p (ts ++ t :: s :: after) last := by simpa using h
        have hnot := hcut.not_digit_after (fun e he => htreads.isDigit hmem hdigit he) c
          (by simp [hnil, hword])
        rw [hdigits c (by simp [hword])] at hnot
        cases hnot
  · have hb : d = b := by simpa [hbs] using hd.symm
    rw [hb]
    exact isDigit_eq_false_of_isBlank (hblanks b (by simp [hbs]))

theorem le_position (h : Cut p slices last) (hs : s ∈ slices) : p ≤ s.position := by
  obtain ⟨before, after, rfl⟩ := List.append_of_mem hs
  rw [h.position_eq]
  exact Nat.le_add_right _ _

end Cut

/-- A member of two lists put together is in the first or in the second. -/
theorem append_eq_append_cons {α : Type} {xs ys before after : List α} {a : α}
    (h : xs ++ ys = before ++ a :: after) :
    (∃ as, xs = before ++ a :: as) ∨ ∃ bs, before = xs ++ bs ∧ ys = bs ++ a :: after := by
  rcases List.append_eq_append_iff.mp h with ⟨bs, hbefore, hys⟩ | ⟨as, hxs, hafter⟩
  · exact .inr ⟨bs, hbefore, hys⟩
  · rcases as with _ | ⟨b, as⟩
    · exact .inr ⟨[], by simpa using hxs.symm, hafter.symm⟩
    · obtain rfl := (List.cons.inj hafter).1
      exact .inl ⟨as, hxs⟩

/-- **A character that is not blank is in one slice.** -/
theorem Cut.existsUnique_covers {p : Nat} {slices : List Slice} {last : List Char}
    (h : Cut p slices last) {before after : List Char} {c : Char}
    (htext : joined slices last = before ++ c :: after) (hc : isBlank c = false) :
    ∃ s ∈ slices, s.Covers (p + byteLength before) ∧
      ∀ t ∈ slices, t.Covers (p + byteLength before) → t = s := by
  induction h generalizing before with
  | last hlast =>
    rw [joined_nil] at htext
    have hblank := hlast c (by simp [htext])
    rw [hc] at hblank
    cases hblank
  | @slice p s slices last hblanks hposition hreads hmaximal hrest ih =>
    have hlater : ∀ t ∈ slices, s.position + byteLength s.word ≤ t.position :=
      fun t ht => hrest.le_position ht
    rw [joined_cons] at htext
    rcases append_eq_append_cons htext with ⟨as, hin⟩ | ⟨bs, rfl, hrest'⟩
    · have hblank := hblanks c (by simp [hin])
      rw [hc] at hblank
      cases hblank
    rw [byteLength_append, ← Nat.add_assoc, ← hposition]
    rcases append_eq_append_cons hrest' with ⟨as, hin⟩ | ⟨ds, rfl, hafter⟩
    · -- the character is in the word of the first slice, and the others begin later
      have hsize : byteLength s.word = byteLength bs + (c.utf8Size + byteLength as) := by
        rw [hin, byteLength_append, byteLength_cons]
      have hpos := c.utf8Size_pos
      refine ⟨s, List.mem_cons_self, ⟨by omega, by omega⟩, fun t ht hcovers => ?_⟩
      rcases List.mem_cons.mp ht with rfl | ht
      · rfl
      · have hle := hlater t ht
        have hlt := hcovers.1
        omega
    · -- the character comes after the first slice
      obtain ⟨t, ht, hcovers, hunique⟩ := ih hafter
      rw [byteLength_append, ← Nat.add_assoc]
      refine ⟨t, List.mem_cons_of_mem s ht, hcovers, fun u hu hcovers' => ?_⟩
      rcases List.mem_cons.mp hu with rfl | hu
      · have hlt := hcovers'.2
        omega
      · exact hunique u hu hcovers'

/-! ### Whole texts -/

/-- **A word that was read** stands in the text where it was read, and no digit is next to a run of
digits. -/
theorem exists_word_of_mem_wordsAt {text : String} {r : Reading} (h : r ∈ wordsAt 0 text.toList) :
    ∃ before word after : List Char, text.toList = before ++ (word ++ after) ∧
      byteLength before = r.position ∧ Reads word r.position (r.map Lexeme.token) ∧
      ((∀ c ∈ word, c.isDigit = true) → (∀ d ∈ before.getLast?, d.isDigit = false) ∧
        ∀ d ∈ after.head?, d.isDigit = false) := by
  obtain ⟨slices, last, hcut, hjoined, hreports⟩ := exists_cut 0 text.toList
  have hreport : r.report ∈ slices.map Slice.report := hreports ▸ List.mem_map_of_mem h
  obtain ⟨s, hs, hreport⟩ := List.mem_map.mp hreport
  obtain ⟨houtcome, hposition⟩ := Prod.mk.inj hreport
  obtain ⟨before, after, rfl⟩ := List.append_of_mem hs
  refine ⟨before.flatMap Slice.text ++ s.blanks, s.word, joined after last, ?_, ?_, ?_, ?_⟩
  · rw [← hjoined]
    simp [joined, Slice.text]
  · rw [← hposition, hcut.position_eq, Nat.zero_add]
  · rw [← hposition, ← houtcome]
    exact (hcut.reads hs).2
  · exact fun hdigits => ⟨hcut.not_digit_before hdigits, hcut.not_digit_after hdigits⟩

/-- **Reading neither loses, invents nor splits text.** The reports up to the end are those about
slices, which make up the text with blanks at its end. Each slice is blanks and a word that is read
as it is reported, it stands where it is reported to stand, and no digit is next to a run of digits.
A character that is not blank is in the word of one slice. -/
theorem exists_slices (text : String) :
    ∃ (slices : List Slice) (last : List Char),
      (Cursor.ofString text).reports =
        slices.map Slice.report ++ [(.ok .endOfInput, text.utf8ByteSize)] ∧
      text.toList = slices.flatMap (fun s => s.blanks ++ s.word) ++ last ∧
      (∀ c ∈ last, isBlank c = true) ∧
      (∀ s ∈ slices, (∀ c ∈ s.blanks, isBlank c = true) ∧ Reads s.word s.position s.outcome) ∧
      (∀ before s after, slices = before ++ s :: after →
        s.position = byteLength (before.flatMap (fun t => t.blanks ++ t.word) ++ s.blanks) ∧
        ((∀ c ∈ s.word, c.isDigit = true) →
          (∀ d ∈ (before.flatMap (fun t => t.blanks ++ t.word) ++ s.blanks).getLast?,
            d.isDigit = false) ∧
          ∀ d ∈ (after.flatMap (fun t => t.blanks ++ t.word) ++ last).head?, d.isDigit = false)) ∧
      ∀ before c after, text.toList = before ++ c :: after → isBlank c = false →
        ∃! s, s ∈ slices ∧ s.position ≤ byteLength before ∧
          byteLength before < s.position + byteLength s.word := by
  obtain ⟨slices, last, hcut, hjoined, hreports⟩ := exists_cut 0 text.toList
  refine ⟨slices, last, ?_, hjoined.symm, hcut.last_isBlank, fun s hs => hcut.reads hs, ?_, ?_⟩
  · have hreadings : (Cursor.ofString text).readings = _ := readings_eq text
    rw [Cursor.reports_eq, hreadings, List.map_append, hreports]
    rfl
  · rintro before s after rfl
    refine ⟨?_, fun hdigits => ⟨hcut.not_digit_before hdigits, hcut.not_digit_after hdigits⟩⟩
    rw [hcut.position_eq, Nat.zero_add]
    rfl
  · intro before c after htext hc
    obtain ⟨s, hs, hcovers, hunique⟩ := hcut.existsUnique_covers (hjoined.trans htext) hc
    rw [Nat.zero_add] at hcovers hunique
    exact ⟨s, ⟨hs, hcovers⟩, fun t ht => hunique t ht.1 ht.2⟩

end Calculator
