import Calculator.Proofs.Blanks
import Calculator.Proofs.Inorder
import Calculator.Proofs.Tokenizing

/-!
# Blanks behind a text

Blanks behind everything else are not only insignificant, they hardly leave a trace. No word is
behind them, so that every position stays in a tree and in an error about a word. There is one thing
that they move, and that is the end of the input. The end has a position in one kind of error only,
that in which the end itself cannot stand where it is.

## Main results

* `tokenize_append_blanks`: the tokens are the same.
* `position_of_parse_error`: where an error of parsing is.
* `parse_append_blanks`: what becomes of a tree or an error.
-/

namespace Calculator

variable {u w : String}

theorem tokenize_append_blanks (hblank : Blank w) : tokenize (u ++ w) = tokenize u := by
  have hseparate : Separate u.toList w.toList :=
    separate_of_blank (fun d hd => hblank d (List.mem_of_mem_head? hd)) _
  rw [tokenize_eq, tokenize_eq, String.toList_append, wordsAt_append hseparate,
    wordsAt_of_blanks hblank, List.append_nil]

theorem readings_append_blanks (hblank : Blank w) :
    readings (u ++ w) =
      (readings u).map (Reading.mapPosition (shiftFrom u.utf8ByteSize w.utf8ByteSize)) := by
  have hseparate : Separate u.toList "".toList := fun _ _ _ => nofun
  have h := readings_insert_blanks hseparate hblank
  rwa [String.append_empty, String.append_empty] at h

/-- **Where an error of parsing is**: at a word, or at the end and about the end. -/
theorem position_of_parse_error {text : String} {strict : Bool} {e : Error}
    (h : parse text strict = .error e) :
    (e.position < text.utf8ByteSize ∧ ∀ c, e = .syntactic c → c.found ≠ .endOfInput) ∨
      (e.position = text.utf8ByteSize ∧ ∃ c, e = .syntactic c ∧ c.found = .endOfInput) := by
  obtain ⟨ls, r, rest, hreadings, hcause⟩ := exists_reading_of_parse_error h
  have hmem : r ∈ readings text := by simp [hreadings]
  rw [readings_eq, List.mem_append, List.mem_singleton] at hmem
  rcases hcause with ⟨d, rfl, rfl⟩ | ⟨l, c, rfl, rfl, hposition, hfound⟩
  · rcases hmem with hword | hend
    · exact .inl ⟨position_lt_of_mem_words hword, nofun⟩
    · cases hend
  · rcases hmem with hword | hend
    · refine .inl ⟨hposition.trans_lt (position_lt_of_mem_words hword), fun c' hc' hkind => ?_⟩
      obtain rfl := Error.syntactic.inj hc'
      rw [hfound, Token.kind_eq_endOfInput_iff] at hkind
      exact token_ne_endOfInput_of_mem_wordsAt hword hkind
    · obtain rfl := Except.ok.inj hend
      exact .inr ⟨hposition, c, rfl, hfound⟩

/-- Blanks behind a text change no tree, and they can move an error. -/
theorem parse_append_blanks_eq (hblank : Blank w) (strict : Bool) :
    parse (u ++ w) strict = (parse u strict).mapError
      (Error.mapPosition (shiftFrom u.utf8ByteSize w.utf8ByteSize)) := by
  have hanswers := answers_of_readings (Expr.mapPosition_congruence _)
    (readings_append_blanks (u := u) hblank) strict
  rw [hanswers.eq_map]
  cases hparse : parse u strict with
  | error e => rfl
  | ok e =>
    have hsame : e.mapPosition (shiftFrom u.utf8ByteSize w.utf8ByteSize) = e := by
      refine Expr.mapPosition_eq_self fun p hp => shiftFrom_of_lt ?_ _
      obtain ⟨node, hnode, rfl⟩ := List.mem_map.mp hp
      exact position_lt_of_mem_words (lexeme_mem_wordsAt hparse hnode)
    rw [Except.map, hsame]

/-- **What becomes of a tree or an error when blanks are put behind a text.** Nothing, unless it is
an error about the end of the input; this moves with the end. -/
theorem parse_append_blanks (hblank : Blank w) (strict : Bool) :
    ((∀ c, parse u strict = .error (.syntactic c) → c.found ≠ .endOfInput) →
      parse (u ++ w) strict = parse u strict) ∧
    ∀ c, parse u strict = .error (.syntactic c) → c.found = .endOfInput →
      c.position = u.utf8ByteSize ∧ parse (u ++ w) strict =
        .error (.syntactic (c.mapPosition fun _ => u.utf8ByteSize + w.utf8ByteSize)) := by
  rw [parse_append_blanks_eq hblank]
  cases hparse : parse u strict with
  | ok e => exact ⟨fun _ => rfl, nofun⟩
  | error e =>
    rcases position_of_parse_error hparse with ⟨hlt, hnot⟩ | ⟨heq, c, rfl, hend⟩
    · have hstays : e.mapPosition (shiftFrom u.utf8ByteSize w.utf8ByteSize) = e :=
        Error.mapPosition_eq_self (shiftFrom_of_lt hlt _)
      refine ⟨fun _ => by rw [Except.mapError, hstays], fun c hc hend => ?_⟩
      exact absurd hend (hnot c (Except.error.inj hc))
    · refine ⟨fun hnot => absurd hend (hnot c rfl), fun d hd _ => ?_⟩
      obtain rfl := Error.syntactic.inj (Except.error.inj hd)
      rw [Except.mapError, Error.mapPosition_eq (shiftFrom_of_le (Nat.le_of_eq heq.symm) _), heq]
      exact ⟨heq, rfl⟩

end Calculator
