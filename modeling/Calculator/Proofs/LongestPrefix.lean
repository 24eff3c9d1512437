import Calculator.Proofs.Derivations
import Calculator.Proofs.Lookahead

/-!
# The longest expression that a text begins with

Lenient parsing is strict parsing of a part of the text. It fails when strict parsing does, with the
same error, since nothing but the end of an expression is treated in different ways. When it
succeeds and something is left over, the text before that place is an expression by itself, with the
same tree; and of all beginnings of the text this is the longest that is one, up to blanks at its
end. A longer one contains at least a part of the word that was left over, and a part of such a word
is read as a word that can no more go on with the expression than the whole: what a word begins with
decides whether it is an operator.

## Main definitions

* `LeavesOff`: a text begins with an expression, and the next word cannot go on with it.

## Main results

* `exists_leavesOff`: where lenient parsing leaves off.
* `LeavesOff.parse_before`, `LeavesOff.parse_longer`: the text up to there, and beyond.
* `parse_true_of_parse_false`: what strict parsing gives, by what lenient parsing gives.
-/

namespace Calculator

/-! ### Operators and their signs -/

/-- A word is no operator exactly when it begins with no sign of one. -/
theorem Reads.operator?_eq_none_iff {c : Char} {cs : List Char} {p : Nat} {t : Token}
    (h : Reads (c :: cs) p (.ok t)) : t.operator? = none ↔ c ∉ ['+', '-', '*', '/'] := by
  cases h with
  | number _ _ hdigits _ =>
    have hc : c.isDigit = true := hdigits c List.mem_cons_self
    refine iff_of_true rfl fun hmem => ?_
    have hsign : ∀ d ∈ ['+', '-', '*', '/'], d.isDigit = false := by simp
    rw [hsign c hmem] at hc
    cases hc
  | sign _ hsign =>
    simp only [signs, List.mem_cons, Prod.mk.injEq, List.not_mem_nil, or_false] at hsign
    rcases hsign with
      ⟨rfl, rfl⟩ | ⟨rfl, rfl⟩ | ⟨rfl, rfl⟩ | ⟨rfl, rfl⟩ | ⟨rfl, rfl⟩ | ⟨rfl, rfl⟩ <;>
      simp [Token.operator?]

/-- No word begins with a blank. -/
theorem Reads.isBlank_eq_false {c : Char} {cs : List Char} {p : Nat}
    {outcome : Except LexError Token} (h : Reads (c :: cs) p outcome) : isBlank c = false := by
  cases h with
  | number _ _ hdigits | integerTooLarge _ _ hdigits =>
    exact isBlank_eq_false_of_isDigit (hdigits c List.mem_cons_self)
  | sign _ hsign =>
    simp only [signs, List.mem_cons, Prod.mk.injEq, List.not_mem_nil, or_false] at hsign
    rcases hsign with ⟨rfl, _⟩ | ⟨rfl, _⟩ | ⟨rfl, _⟩ | ⟨rfl, _⟩ | ⟨rfl, _⟩ | ⟨rfl, _⟩ <;> decide
  | invalidCharacter _ hblank => exact hblank

/-- What a word is read as when it begins with no sign of an operator. -/
theorem wordReading_of_no_sign {c : Char} (hblank : isBlank c = false)
    (hsign : c ∉ ['+', '-', '*', '/']) (cs : List Char) (p : Nat) {l : Lexeme}
    (h : wordReading c (splitWord c cs).1 p = .ok l) :
    l.token.operator? = none ∧ l.token ≠ .endOfInput := by
  have hreads := reads_splitWord hblank cs p
  rw [wordReading] at h
  cases hword : Token.ofWord c (splitWord c cs).1 p with
  | error e =>
    rw [hword] at h
    cases h
  | ok t =>
    rw [hword] at h hreads
    obtain rfl := Except.ok.inj h
    obtain ⟨ds, hds⟩ : ∃ ds, (splitWord c cs).1 = c :: ds := by
      rw [splitWord]
      split <;> exact ⟨_, rfl⟩
    rw [hds] at hreads
    refine ⟨hreads.operator?_eq_none_iff.mpr hsign, ?_⟩
    rintro rfl
    exact Token.ofWord_ne_endOfInput _ _ _ hword

/-! ### Where an expression leaves off -/

/-- A text begins with an expression, and after it with a word that no expression goes on with. -/
structure LeavesOff (text : String) (e : Expr) (before : List Char) (c : Char) (cs : List Char) :
    Prop where
  text_eq : text.toList = before ++ c :: cs
  exists_derives : ∃ ls, wordsAt 0 before = ls.map .ok ∧ Derives .expression ls e
  isBlank_eq_false : isBlank c = false
  not_sign : c ∉ ['+', '-', '*', '/']
  separate : Separate before (c :: cs)

namespace LeavesOff

variable {text : String} {e : Expr} {before : List Char} {c : Char} {cs : List Char}

/-- **The text before the word** is parsed to the expression. -/
theorem parse_before (h : LeavesOff text e before c cs) :
    parse (String.ofList before) true = .ok e := by
  obtain ⟨ls, hwords, hderives⟩ := h.exists_derives
  have hreadings := readings_eq (String.ofList before)
  rw [String.toList_ofList, hwords] at hreadings
  rw [parse_of_derives ⟨ls, [], hreadings, hderives⟩ rfl]
  exact Pushdown.ending_eq_ok (.inl rfl) e

/-- **A text that goes on with at least a part of the word** is refused. -/
theorem parse_longer (h : LeavesOff text e before c cs) (us : List Char) (d : Expr) :
    parse (String.ofList (before ++ c :: us)) true ≠ .ok d := by
  obtain ⟨ls, hwords, hderives⟩ := h.exists_derives
  have hborder : Separate before (c :: us) := h.separate.head_congr rfl
  have hreadings : readings (String.ofList (before ++ c :: us)) =
      ls.map .ok ++ wordReading c (splitWord c us).1 (byteLength before) ::
        (Cursor.before (byteLength before + byteLength (splitWord c us).1)
          (splitWord c us).2).readings := by
    rw [readings_eq_before, String.toList_ofList, Cursor.readings_before_append hborder, hwords,
      Nat.zero_add, Cursor.readings_before_of_word h.isBlank_eq_false]
  intro hparse
  cases hword : wordReading c (splitWord c us).1 (byteLength before) with
  | ok l =>
    obtain ⟨hop, hend⟩ := wordReading_of_no_sign h.isBlank_eq_false h.not_sign us _ hword
    rw [hword] at hreadings
    rw [parse_of_derives ⟨ls, _, hreadings, hderives⟩ hop, Pushdown.ending_eq_error hend] at hparse
    cases hparse
  | error err =>
    have hrun := Pushdown.advance_readings (String.ofList (before ++ c :: us)) true
    obtain ⟨x, hx, -⟩ := Pushdown.advance_derives hderives true .empty [] rfl
    rw [hreadings, hword, advance_append, Pushdown.start, hx, hparse] at hrun
    cases hrun

end LeavesOff

namespace TokenStream

variable {text : String} {r : TokenStream} {e : Expr}

/-- The head after an expression, if it is not the end, is the word at which the text leaves off. -/
theorem UpToDate.exists_leavesOff (h : UpToDate text r)
    (hbegins : BeginsWith (Calculator.readings text) e r.head)
    (hop : r.head.token.operator? = none) (hend : r.head.token ≠ .endOfInput) :
    ∃ before c cs, LeavesOff text e before c cs ∧ byteLength before = r.head.position := by
  obtain ⟨ls, rest, hreadings, hderives⟩ := hbegins
  obtain ⟨n, hhead⟩ := h
  have hresult := hhead.result_next
  obtain ⟨start, hstands⟩ := Cursor.exists_stands_skip text n
  obtain ⟨blanks, word, hread, hreads⟩ := hstands.exists_hasRead (by simpa [hresult] using hend)
  rw [← hhead.cursor_eq] at hread hreads
  rw [hresult] at hreads
  obtain ⟨c, cs, rfl⟩ := List.exists_cons_of_ne_nil hreads.ne_nil
  have hsize : byteLength (start ++ blanks) = r.head.position := by
    rw [hhead.position_head, hread.position_eq]
  have hwords := Cursor.filter_position_readings_append hread.separate_word
  rw [← hread.text_eq, hsize] at hwords
  refine ⟨start ++ blanks, c, cs ++ r.cursor.rest, ⟨hread.text_eq, ⟨ls, ?_, hderives⟩,
    hreads.isBlank_eq_false, hreads.operator?_eq_none_iff.mp hop, hread.separate_word⟩, hsize⟩
  exact hwords.symm.trans (filter_position_readings hreadings).1

end TokenStream

/-- **Where lenient parsing leaves off.** -/
theorem exists_leavesOff {text : String} {e : Expr} (h : parse text false = .ok e) :
    ∃ s r, (TokenStream.ofString text).result = .ok s ∧ (s.parse false).Yields e r ∧
      BeginsWith (readings text) e r.head ∧ r.head.token.operator? = none ∧
      (r.head.token ≠ .endOfInput →
        ∃ before c cs, LeavesOff text e before c cs ∧ byteLength before = r.head.position) := by
  obtain ⟨s, hs, hparse⟩ := exists_stream_of_parse h
  have hyields : (s.parse false).Yields e s.expression.state :=
    ⟨hparse, TokenStream.state_parse s false⟩
  rw [Pushdown.result_parse, bind_eq_ok_iff] at hparse
  obtain ⟨d, hd, hending⟩ := hparse
  obtain rfl := Pushdown.eq_of_ending_eq_ok hending
  obtain ⟨hbegins, hop⟩ := beginsWith_of_expression hs hd
  have hmeets := TokenStream.expression_meets (TokenStream.upToDate_of_ofString hs)
  exact ⟨s, _, hs, hyields, hbegins, hop, (hmeets.of_ok hd).exists_leavesOff hbegins hop⟩

/-- Strict parsing fails where lenient parsing does. -/
theorem parse_true_of_error {text : String} {e : Error} (h : parse text false = .error e) :
    parse text true = .error e := by
  cases hs : (TokenStream.ofString text).result with
  | error err => rwa [parse_of_no_stream hs] at h ⊢
  | ok s =>
    rw [parse_of_stream hs, Pushdown.result_parse] at h ⊢
    cases hresult : s.expression.result with
    | error err => rwa [hresult] at h
    | ok t =>
      rw [hresult, Except.bind, Pushdown.ending_eq_ok (.inr rfl)] at h
      cases h

/-- **Lenient parsing is strict parsing of the longest expression that the text begins with.** If it
fails, then strict parsing fails with the same error. If it leaves nothing over, then strict parsing
gives the same tree. If it leaves over a word, then strict parsing refuses this word; the text
before the word is strictly parsed to the same tree, and no longer part of the text is strictly
parsed. -/
theorem parse_true_of_parse_false (text : String) :
    (∀ e, parse text false = .error e → parse text true = .error e) ∧
    ∀ t, parse text false = .ok t → ∃ s r,
      (TokenStream.ofString text).result = .ok s ∧ (s.parse false).Yields t r ∧
      (r.head.token = .endOfInput → parse text true = .ok t) ∧
      (r.head.token ≠ .endOfInput →
        parse text true =
          .error (.syntactic (.trailingInput r.head.token.kind r.head.position)) ∧
        (∃ before after : String, text = before ++ after ∧
          before.utf8ByteSize = r.head.position ∧ parse before true = .ok t) ∧
        ∀ u v : String, text = u ++ v → r.head.position < u.utf8ByteSize →
          ∀ d, parse u true ≠ .ok d) := by
  refine ⟨fun e => parse_true_of_error, fun t ht => ?_⟩
  obtain ⟨s, r, hs, hyields, hbegins, hop, hleaves⟩ := exists_leavesOff ht
  refine ⟨s, r, hs, hyields, fun hend => ?_, fun hend => ?_⟩
  · rw [parse_of_derives hbegins hop]
    exact Pushdown.ending_eq_ok (.inl hend) t
  · obtain ⟨before, c, cs, h, hsize⟩ := hleaves hend
    refine ⟨?_, ⟨String.ofList before, String.ofList (c :: cs), ?_, ?_, h.parse_before⟩, ?_⟩
    · rw [parse_of_derives hbegins hop]
      exact Pushdown.ending_eq_error hend t
    · rw [← String.ofList_append, ← h.text_eq, String.ofList_toList]
    · rw [← hsize, ← byteLength_toList, String.toList_ofList]
    · rintro u v rfl hlonger d
      have htext := h.text_eq
      rw [← hsize, ← byteLength_toList] at hlonger
      rw [String.toList_append] at htext
      obtain ⟨us, hu⟩ : ∃ us, u.toList = before ++ c :: us := by
        rcases append_eq_append_cons htext with hu | ⟨bs, rfl, -⟩
        · exact hu
        · rw [byteLength_append] at hlonger
          omega
      have hlong := h.parse_longer us d
      rwa [← hu, String.ofList_toList] at hlong

end Calculator
