import Calculator.Proofs.Congruence
import Calculator.Proofs.ViablePrefix

/-!
# Expressions one after the other

Several expressions may stand in one text, with blanks between them, and be taken from the stream
of its tokens one call after the other. Where an expression ends is never in doubt, since what comes
next begins an expression too and so is no operator. Whatever becomes of a call, it leaves the
stream where the next expression begins: taking an expression comes before everything that can go
wrong with one that is well-formed, and what goes wrong then does not touch the stream.

The invariant of a sequence of calls is `TokenStream.At`: the stream has still to read a certain
text, from a certain offset on. A call takes one expression from that text, whatever is asked of it.

## Main definitions

* `Passage`, `Passage.join`: an expression with the blanks before it, and a text made of some.
* `Passage.WellSeparated`: what is required of them.
* `TokenStream.At`: what a stream has still to read.
* `TokenStream.afterCalls`: a stream after calls that were strict or not.

## Main results

* `TokenStream.expression_of_derives`: taking an expression when the readings begin with one.
* `TokenStream.phrase_of_no_operand`: where no operand begins nothing is taken.
* `TokenStream.expression_at_passage`, `TokenStream.calculate_at_end`: one call.
* `TokenStream.at_afterCalls`: what is left after some calls.
* `calculate_afterCalls_join`: each call gives the value of its expression, or its error.
-/

namespace Calculator

/-! ### Where an expression begins and ends -/

/-- Only an operator goes on after an expression. -/
theorem Derives.exists_operator_of_append {ls ms : List Lexeme} {m : Lexeme} {d e : Expr}
    (hd : Derives .expression ls d) (he : Derives .expression (ls ++ m :: ms) e) :
    ∃ op, m.token.operator? = some op := by
  have hrun := Counter.run?_of_derives he 0
  rw [kinds_append, Counter.run?_append, Counter.run?_of_derives hd 0, Option.bind_some, kinds_cons,
    Counter.run?_cons, Option.bind_eq_some_iff] at hrun
  obtain ⟨s, hnext, -⟩ := hrun
  rcases Counter.next?_eq_some_cases hnext with ⟨_, _, hs, -⟩ | ⟨_, hs, -⟩ | ⟨_, op, -, hop, -⟩ |
    ⟨_, hs, -⟩
  · cases hs
  · cases hs
  · exact ⟨op, Token.operator?_eq_some_iff.mpr hop⟩
  · cases hs

/-- Of two expressions that readings begin with, one is not longer than the other. -/
theorem Derives.eq_of_isPrefix {ls ms : List Lexeme} {d e : Expr} {l m : Lexeme}
    {rs qs : List Reading} (hd : Derives .expression ls d) (he : Derives .expression ms e)
    (hl : l.token.operator? = none) (h : ls.map .ok ++ .ok l :: rs = ms.map .ok ++ .ok m :: qs)
    (hle : List.IsPrefix ls ms) : ls = ms := by
  obtain ⟨as, rfl⟩ := hle
  rcases as with _ | ⟨a, as⟩
  · rw [List.append_nil]
  · rw [List.map_append, List.append_assoc] at h
    obtain rfl := Except.ok.inj (List.cons.inj (List.append_cancel_left h)).1
    obtain ⟨op, hop⟩ := hd.exists_operator_of_append he
    rw [hl] at hop
    cases hop

/-- **Readings begin with one expression only**, if what comes after it is no operator. -/
theorem Derives.eq_of_readings {ls ms : List Lexeme} {d e : Expr} {l m : Lexeme}
    {rs qs : List Reading} (hd : Derives .expression ls d) (he : Derives .expression ms e)
    (hl : l.token.operator? = none) (hm : m.token.operator? = none)
    (h : ls.map .ok ++ .ok l :: rs = ms.map .ok ++ .ok m :: qs) : ls = ms := by
  have hinj : Function.Injective (Except.ok : Lexeme → Reading) := fun _ _ => Except.ok.inj
  have hls := List.prefix_append (ls.map Except.ok) (.ok l :: rs)
  rw [h] at hls
  rcases List.prefix_or_prefix_of_prefix hls (List.prefix_append _ _) with hle | hle
  · exact hd.eq_of_isPrefix he hl h ((List.prefix_map_iff_of_injective hinj).mp hle)
  · exact (he.eq_of_isPrefix hd hm h.symm ((List.prefix_map_iff_of_injective hinj).mp hle)).symm

namespace TokenStream

variable {s : TokenStream}

/-- **Taking an expression when the readings begin with one.** What comes after it stays. -/
theorem expression_of_derives {ls : List Lexeme} {e : Expr} {next : Lexeme} {rest : List Reading}
    (hs : s.readings = ls.map .ok ++ .ok next :: rest) (hderives : Derives .expression ls e)
    (hnext : next.token.operator? = none) :
    ∃ r, s.expression.Yields e r ∧ r.readings = .ok next :: rest := by
  -- the machine says that there is a tree and which one, the rules say where they stop
  have hrun := Pushdown.advance_phrase false .expression s .empty [] rfl
  obtain ⟨_, hx, term, sum, rfl, rfl⟩ :=
    Pushdown.advance_derives hderives false .empty [] rfl
  rw [hs, advance_append, hx] at hrun
  replace hrun := (advance_of_stop (Pushdown.move_outside hnext) rest).symm.trans hrun
  rw [Pushdown.ending_eq_ok (.inr rfl), Outcome.resume] at hrun
  cases hresult : (s.phrase .expression).result with
  | error err =>
    rw [hresult] at hrun
    cases hrun
  | ok d =>
    rw [hresult] at hrun
    have hyields : s.expression.Yields d s.expression.state := ⟨hresult, rfl⟩
    obtain ⟨ms, hms, hd⟩ := spells_of_phrase hyields
    have hfollows := follows_expression_iff.mp (follows_of_phrase hyields)
    have hread : s.expression.state.readings = .ok s.expression.state.head :: _ := readings.eq_1 _
    have hsplit := hs.symm.trans hms
    rw [hread] at hsplit
    obtain rfl := hderives.eq_of_readings hd hnext hfollows hsplit
    have hmove : Pushdown.move false (.seen d none []) s.expression.state.head = .stop (.ok d) := by
      rw [Pushdown.move_outside hfollows, Pushdown.ending_eq_ok (.inr rfl), Pending.complete]
    have hstop := advance_readings_of_stop hmove
    obtain rfl := Except.ok.inj (Move.stop.inj (hrun.trans hstop))
    refine ⟨_, hyields, ?_⟩
    rw [hread]
    exact (List.append_cancel_left hsplit).symm

/-- **Nothing can be taken where no operand begins.** The stream stays as it is. -/
theorem phrase_of_no_operand (hnumber : ∀ value, s.head.token ≠ .number value)
    (hparen : s.head.token ≠ .leftParen) (c : Category) :
    s.phrase c = .error (.syntactic (.expectedFactor s.head.token.kind s.head.position)) s := by
  have hfactor := phrase_factor_of_other hnumber hparen
  have hterm := phrase_term s
  rw [hfactor, Outcome.andThen_of_error rfl] at hterm
  have hexpression := phrase_expression s
  rw [hterm, Outcome.andThen_of_error rfl] at hexpression
  cases c with
  | factor => exact hfactor
  | term => exact hterm
  | expression => exact hexpression

end TokenStream

/-! ### Texts made of expressions -/

/-- An expression and the blanks before it. -/
structure Passage where
  gap : String
  source : String
  blank_gap : Blank gap
  parses : ∃ e, parse source true = .ok e

namespace Passage

/-- The text made of passages, and of what comes after the last of them. -/
def join : List Passage → String → String
  | [], last => last
  | x :: parts, last => x.gap ++ x.source ++ join parts last

/-- Any two expressions are kept apart by blanks, and only blanks follow the last one. -/
structure WellSeparated (parts : List Passage) (last : String) : Prop where
  gap_ne : ∀ x ∈ parts.tail, x.gap ≠ ""
  blank_last : Blank last

variable {parts : List Passage} {last : String}

@[simp] theorem size_join_cons (x : Passage) (parts : List Passage) (last : String) :
    (join (x :: parts) last).utf8ByteSize =
      x.gap.utf8ByteSize + x.source.utf8ByteSize + (join parts last).utf8ByteSize := by
  rw [join, String.utf8ByteSize_append, String.utf8ByteSize_append]

theorem size_join_append (parts rest : List Passage) (last : String) :
    (join (parts ++ rest) last).utf8ByteSize =
      (join parts "").utf8ByteSize + (join rest last).utf8ByteSize := by
  induction parts with
  | nil => simp [join]
  | cons x parts ih =>
    rw [List.cons_append, size_join_cons, size_join_cons, ih]
    omega

theorem size_join (parts : List Passage) (last : String) :
    (join parts last).utf8ByteSize = (join parts "").utf8ByteSize + last.utf8ByteSize := by
  have h := size_join_append parts [] last
  rwa [List.append_nil] at h

theorem WellSeparated.tail {x : Passage} (h : WellSeparated (x :: parts) last) :
    WellSeparated parts last :=
  ⟨fun y hy => h.gap_ne y (List.mem_of_mem_tail hy), h.blank_last⟩

theorem WellSeparated.of_append {before after : List Passage}
    (h : WellSeparated (before ++ after) last) : WellSeparated after last := by
  induction before with
  | nil => exact h
  | cons x before ih => exact ih h.tail

/-- What follows the first expression begins with a blank, if anything does. -/
theorem WellSeparated.separate {x : Passage} (h : WellSeparated (x :: parts) last) :
    Separate x.source.toList (join parts last).toList := by
  refine separate_of_blank (fun d hd => ?_) _
  rcases parts with _ | ⟨y, parts⟩
  · exact h.blank_last d (List.mem_of_head? hd)
  · obtain ⟨c, cs, hgap⟩ := List.exists_cons_of_ne_nil
      (mt String.toList_eq_nil_iff.mp (h.gap_ne y List.mem_cons_self))
    have hcd : c = d := by
      simpa [join, String.toList_append, hgap] using hd
    rw [← hcd]
    exact y.blank_gap c (by simp [hgap])

/-- The first lexeme of an expression, which no expression goes on with. -/
theorem exists_first (x : Passage) :
    ∃ l, (readings x.source).head? = some (.ok l) ∧ l.token.operator? = none ∧
      l.token ≠ .endOfInput := by
  obtain ⟨e, he⟩ := x.parses
  obtain ⟨ls, hwords, hderives⟩ := words_of_parse he
  obtain ⟨l, rest, rfl, hop, hend⟩ := hderives.exists_head
  refine ⟨l, ?_, hop, hend⟩
  rw [readings_eq, hwords]
  rfl

/-- The first lexeme of an expression comes first wherever the expression stands. -/
theorem head?_wordsAt {x : Passage} {l : Lexeme} (hl : (readings x.source).head? = some (.ok l))
    (p : Nat) : (wordsAt p x.source.toList).head? = some (.ok (l.mapPosition (p + ·))) := by
  obtain ⟨e, he⟩ := x.parses
  obtain ⟨ls, hwords, hderives⟩ := words_of_parse he
  obtain ⟨m, rest, rfl, -, -⟩ := hderives.exists_head
  rw [readings_eq, hwords] at hl
  obtain rfl := Except.ok.inj (Option.some.inj hl)
  rw [← map_wordsAt_zero, hwords]
  rfl

/-- The readings of a text that begins with a passage. -/
theorem readings_join_cons {x : Passage} (h : WellSeparated (x :: parts) last) (p : Nat) :
    (Cursor.before p (join (x :: parts) last).toList).readings =
      wordsAt (p + x.gap.utf8ByteSize) x.source.toList ++
        (Cursor.before (p + x.gap.utf8ByteSize + x.source.utf8ByteSize)
          (join parts last).toList).readings := by
  rw [join, String.toList_append, String.toList_append, List.append_assoc,
    Cursor.readings_before_blanks x.blank_gap, Cursor.readings_before_append h.separate,
    byteLength_toList, byteLength_toList]

/-- The readings of a text with no expression. -/
theorem readings_join_nil (h : Blank last) (p : Nat) :
    (Cursor.before p (join [] last).toList).readings =
      [.ok ⟨.endOfInput, p + last.utf8ByteSize⟩] := by
  rw [join, Cursor.readings_before, wordsAt_of_blanks h, byteLength_toList, List.nil_append]

/-- The first reading of a text that begins with a passage. -/
theorem head?_readings_join_cons {x : Passage} (h : WellSeparated (x :: parts) last) {l : Lexeme}
    (hl : (readings x.source).head? = some (.ok l)) (p : Nat) :
    (Cursor.before p (join (x :: parts) last).toList).readings.head? =
      some (.ok (l.mapPosition (p + x.gap.utf8ByteSize + ·))) := by
  rw [readings_join_cons h, List.head?_append, head?_wordsAt hl]
  rfl

/-- Texts made of passages begin with a lexeme that is no operator; it is the end of the input
where no passage is left. -/
theorem WellSeparated.exists_next (h : WellSeparated parts last) (p : Nat) :
    ∃ next rest, (Cursor.before p (join parts last).toList).readings = .ok next :: rest ∧
      next.token.operator? = none ∧ (next.token = .endOfInput ↔ parts = []) := by
  rcases parts with _ | ⟨x, parts⟩
  · exact ⟨_, [], readings_join_nil h.blank_last p, rfl, by simp⟩
  · obtain ⟨l, hl, hop, hend⟩ := x.exists_first
    obtain ⟨rest, hrest⟩ := List.head?_eq_some_iff.mp (head?_readings_join_cons h hl p)
    exact ⟨_, rest, hrest, hop, by simpa using hend⟩

end Passage

/-! ### Calls -/

namespace TokenStream

open Passage

/-- The stream has still to read a text that begins at an offset. -/
def At (s : TokenStream) (p : Nat) (text : String) : Prop :=
  s.readings = (Cursor.before p text.toList).readings

/-- The stream after calls, each of them strict or not. -/
def afterCalls (s : TokenStream) (flags : List Bool) : TokenStream :=
  flags.foldl (fun s strict => (s.calculate strict).state) s

variable {s r : TokenStream} {p : Nat} {x : Passage} {parts : List Passage} {last : String}

/-- **Taking an expression from a text made of passages.** Its value is that of its source, and the
text after it is left. -/
theorem expression_at_passage (h : WellSeparated (x :: parts) last)
    (hs : s.At p (join (x :: parts) last)) :
    ∃ e r, s.expression.Yields e r ∧
      r.At (p + x.gap.utf8ByteSize + x.source.utf8ByteSize) (join parts last) ∧
      e.evaluate.result.mapError .runtime =
        (evaluate x.source true).mapError (Error.mapPosition (p + x.gap.utf8ByteSize + ·)) := by
  obtain ⟨e, he⟩ := x.parses
  obtain ⟨ls, hwords, hderives⟩ := wordsAt_of_parse he (p + x.gap.utf8ByteSize)
  obtain ⟨next, rest, hnext, hop, -⟩ :=
    h.tail.exists_next (p + x.gap.utf8ByteSize + x.source.utf8ByteSize)
  rw [At, readings_join_cons h, hwords, hnext] at hs
  obtain ⟨r, hyields, hr⟩ := expression_of_derives hs hderives hop
  refine ⟨_, r, hyields, hr.trans hnext.symm, ?_⟩
  have hagrees : Expr.Agrees (p + x.gap.utf8ByteSize + ·) e _ :=
    Expr.agrees_congruence.mapPosition e
  rw [hagrees, evaluate_eq_bind, he, Except.bind]
  cases e.evaluate.result <;> rfl

/-- What a call makes of the expression that it takes. -/
theorem result_calculate_of_yields {e : Expr} (h : s.expression.Yields e r) (strict : Bool) :
    (s.calculate strict).result = (Pushdown.ending strict e r.head).bind fun e =>
      e.evaluate.result.mapError .runtime := by
  obtain ⟨hresult, rfl⟩ := h
  rw [result_calculate, Pushdown.result_parse, hresult]
  rfl

/-- A call takes one passage, whatever becomes of it. -/
theorem state_calculate_at_passage (h : WellSeparated (x :: parts) last)
    (hs : s.At p (join (x :: parts) last)) (strict : Bool) :
    (s.calculate strict).state.At (p + x.gap.utf8ByteSize + x.source.utf8ByteSize)
      (join parts last) := by
  obtain ⟨e, r, ⟨-, rfl⟩, hr, -⟩ := expression_at_passage h hs
  rwa [state_calculate]

/-- A call gives the value of the expression, or its error, if it is lenient or nothing comes
after the expression. -/
theorem result_calculate_at_passage (h : WellSeparated (x :: parts) last)
    (hs : s.At p (join (x :: parts) last)) {strict : Bool} (hlast : strict = false ∨ parts = []) :
    (s.calculate strict).result =
      (evaluate x.source true).mapError (Error.mapPosition (p + x.gap.utf8ByteSize + ·)) := by
  obtain ⟨e, r, hyields, hr, hvalue⟩ := expression_at_passage h hs
  obtain ⟨next, rest, hnext, -, hend⟩ :=
    h.tail.exists_next (p + x.gap.utf8ByteSize + x.source.utf8ByteSize)
  have hhead := head_of_readings (hr.trans hnext)
  rw [result_calculate_of_yields hyields, Pushdown.ending_eq_ok, Except.bind, hvalue]
  rw [hhead, hend]
  exact hlast.symm

/-- A strict call refuses an expression that another one follows. -/
theorem result_calculate_at_passages {y : Passage} (h : WellSeparated (x :: y :: parts) last)
    (hs : s.At p (join (x :: y :: parts) last)) {l : Lexeme}
    (hl : (Calculator.readings y.source).head? = some (.ok l)) (hend : l.token ≠ .endOfInput) :
    (s.calculate true).result = .error (.syntactic (.trailingInput l.token.kind
      (p + x.gap.utf8ByteSize + x.source.utf8ByteSize + y.gap.utf8ByteSize + l.position))) := by
  obtain ⟨e, r, hyields, hr, -⟩ := expression_at_passage h hs
  obtain ⟨rest, hnext⟩ := List.head?_eq_some_iff.mp (head?_readings_join_cons h.tail hl _)
  have hhead := head_of_readings (hr.trans hnext)
  rw [result_calculate_of_yields hyields, hhead,
    Pushdown.ending_eq_error (l := l.mapPosition _) hend]
  rfl

/-- **A call where no expression is left** fails at the end of the text and leaves the stream as it
is. -/
theorem calculate_at_end (hblank : Blank last) (hs : s.At p (join [] last)) (strict : Bool) :
    (s.calculate strict).state = s ∧
      (s.calculate strict).result =
        .error (.syntactic (.expectedFactor .endOfInput (p + last.utf8ByteSize))) := by
  have hhead := head_of_readings (hs.trans (readings_join_nil hblank p))
  have hexpression := phrase_of_no_operand (s := s) (by simp [hhead]) (by simp [hhead]) .expression
  rw [state_calculate, result_calculate, Pushdown.result_parse, expression, hexpression, hhead]
  exact ⟨rfl, rfl⟩

/-- **What is left after some calls**: the text from behind as many passages as there were calls. -/
theorem at_afterCalls (h : WellSeparated parts last) (hs : s.At p (join parts last))
    (flags : List Bool) :
    (s.afterCalls flags).At (p + (join (parts.take flags.length) "").utf8ByteSize)
      (join (parts.drop flags.length) last) := by
  induction flags generalizing s p parts with
  | nil => simpa [afterCalls, join] using hs
  | cons strict flags ih =>
    rcases parts with _ | ⟨x, parts⟩
    · have hstay := (calculate_at_end h.blank_last hs strict).1
      have hrest := ih h hs
      rw [List.take_nil, List.drop_nil] at hrest ⊢
      rwa [afterCalls, List.foldl_cons, hstay]
    · have hrest := ih h.tail (state_calculate_at_passage h hs strict)
      rwa [List.length_cons, List.take_succ_cons, List.drop_succ_cons, size_join_cons,
        ← Nat.add_assoc, ← Nat.add_assoc]

end TokenStream

/-- A text made of passages has a stream of tokens. -/
theorem Passage.WellSeparated.exists_stream {parts : List Passage} {last : String}
    (h : WellSeparated parts last) :
    ∃ s, (TokenStream.ofString (join parts last)).result = .ok s ∧ s.At 0 (join parts last) := by
  obtain ⟨next, rest, hnext, -⟩ := h.exists_next 0
  cases hs : (TokenStream.ofString (join parts last)).result with
  | ok s => exact ⟨s, rfl, TokenStream.readings_ofCursor hs⟩
  | error e =>
    have herror := hnext.symm.trans (TokenStream.readings_of_ofCursor_error hs)
    cases (List.cons.inj herror).1

/-- **Each call gives the value of its expression, or its error.** In a text made of expressions
with blanks between them, a call that `n` others came before is about the expression that `n` others
come before, however strict those calls were and whatever became of them. An error of evaluation is
found where the expression stands in the text. A strict call refuses an expression that another one
follows, and names the first lexeme of that one. Behind the last expression every call fails, at
the end of the text. -/
theorem calculate_afterCalls_join {parts : List Passage} {last : String}
    (h : Passage.WellSeparated parts last) :
    ∃ s, (TokenStream.ofString (Passage.join parts last)).result = .ok s ∧
      (∀ before x after flags strict, parts = before ++ x :: after →
        flags.length = before.length → strict = false ∨ after = [] →
          ((s.afterCalls flags).calculate strict).result = (evaluate x.source true).mapError
            (Error.mapPosition ((Passage.join before x.gap).utf8ByteSize + ·))) ∧
      (∀ before x y after flags, parts = before ++ x :: y :: after →
        flags.length = before.length →
          ∃ l, (readings y.source).head? = some (.ok l) ∧
            ((s.afterCalls flags).calculate true).result =
              .error (.syntactic (.trailingInput l.token.kind
                ((Passage.join (before ++ [x]) y.gap).utf8ByteSize + l.position)))) ∧
      ∀ flags strict, parts.length ≤ flags.length →
        ((s.afterCalls flags).calculate strict).result =
          .error (.syntactic (.expectedFactor .endOfInput
            (Passage.join parts last).utf8ByteSize)) := by
  obtain ⟨s, hs, hat⟩ := h.exists_stream
  refine ⟨s, hs, ?_, ?_, fun flags strict hlen => ?_⟩
  · rintro before x after flags strict rfl hlen hlast
    have hleft := TokenStream.at_afterCalls h hat flags
    rw [List.take_left' hlen.symm, List.drop_left' hlen.symm] at hleft
    rw [TokenStream.result_calculate_at_passage h.of_append hleft hlast,
      Passage.size_join before x.gap, Nat.zero_add]
  · rintro before x y after flags rfl hlen
    have hleft := TokenStream.at_afterCalls h hat flags
    rw [List.take_left' hlen.symm, List.drop_left' hlen.symm] at hleft
    obtain ⟨l, hl, -, hend⟩ := y.exists_first
    refine ⟨l, hl, ?_⟩
    rw [TokenStream.result_calculate_at_passages h.of_append hleft hl hend,
      Passage.size_join_append, Passage.size_join_cons, Passage.join, Nat.zero_add]
    simp only [Nat.add_assoc]
  · have hleft := TokenStream.at_afterCalls h hat flags
    rw [List.take_of_length_le hlen, List.drop_of_length_le hlen] at hleft
    rw [(TokenStream.calculate_at_end h.blank_last hleft strict).2, Passage.size_join parts last,
      Nat.zero_add]

/-- A division by zero and a strict call do not keep the product after them from being evaluated. -/
theorem calculate_afterCalls_join_product :
    ∃ s, (TokenStream.ofString "1/0\n 2*(3+4) ").result = .ok s ∧
      (s.calculate false).result = .error (.runtime (.divisionByZero 1)) ∧
      (s.calculate true).result = .error (.syntactic (.trailingInput .number 5)) ∧
      ((s.afterCalls [true]).calculate true).result = .ok (.integer ⟨14, by decide, by decide⟩) ∧
      ((s.afterCalls [true, false]).calculate true).result =
        .error (.syntactic (.expectedFactor .endOfInput 13)) := by
  have hsep : Passage.WellSeparated
      [⟨"", "1/0", by decide, exists_ok_of_isSome (by decide +kernel)⟩,
        ⟨"\n ", "2*(3+4)", by decide, exists_ok_of_isSome (by decide +kernel)⟩] " " :=
    ⟨by simp, by decide⟩
  obtain ⟨s, hs, hvalue, htrailing, hend⟩ := calculate_afterCalls_join hsep
  have hquotient : evaluate "1/0" true = .error (.runtime (.divisionByZero 1)) :=
    error_of_error? (by decide +kernel)
  have hproduct : evaluate "2*(3+4)" true = .ok (.integer ⟨14, by decide, by decide⟩) :=
    ok_of_toOption (by decide +kernel)
  obtain ⟨l, hl, hrefused⟩ := htrailing [] _ _ [] [] rfl rfl
  have hfirst : (readings "2*(3+4)").head?.bind Except.toOption =
      some ⟨.number ⟨2, by decide, by decide⟩, 0⟩ := by decide +kernel
  obtain rfl := Option.some.inj ((congrArg (Option.bind · Except.toOption) hl).symm.trans hfirst)
  refine ⟨s, hs, ?_, hrefused, ?_, hend [true, false] true (by decide)⟩
  · have h := hvalue [] _ _ [] false rfl rfl (.inl rfl)
    rw [hquotient] at h
    exact h
  · have h := hvalue [_] _ [] [true] true rfl rfl (.inr rfl)
    rw [hproduct] at h
    exact h

end Calculator
