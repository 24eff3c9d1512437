import Calculator.Proofs.Parametricity

/-!
# Blanks between words

Blanks may be put anywhere into a text, except between two digits, and nothing changes but the
places of what comes after them. This is true of texts of any kind: the blanks may be put next to
other blanks, next to a character that belongs to no word or a literal that is too large, or before
the end, and the text may be no expression. Wherever they stand, the same words are read, and from
there on the parser sees the words only.

The one border that matters is the one between two digits, where a blank makes two literals of one.

## Main definitions

* `shiftFrom`: where a place of a text is found when something was inserted into the text.

## Main results

* `readings_insert_blanks`: the readings with the blanks are those without them, moved.
* `evaluate_insert_blanks`: values, errors and trees are the same, moved.
-/

namespace Calculator

/-- Where the place `p` of a text is found when `length` bytes were inserted at `place`. -/
def shiftFrom (place length p : Nat) : Nat := if place ≤ p then p + length else p

theorem shiftFrom_of_le {place p : Nat} (h : place ≤ p) (length : Nat) :
    shiftFrom place length p = p + length := if_pos h

theorem shiftFrom_of_lt {place p : Nat} (h : p < place) (length : Nat) :
    shiftFrom place length p = p := if_neg (Nat.not_le.mpr h)

/-- Blanks do not join what was separate. -/
theorem Separate.insert_blanks {us ws vs : List Char} (h : Separate us vs)
    (hblank : ∀ c ∈ ws, isBlank c = true) : Separate us (ws ++ vs) := by
  rcases ws with _ | ⟨c, ws⟩
  · exact h
  · exact separate_cons (isDigit_eq_false_of_isBlank (hblank c List.mem_cons_self)) us _

variable {u v w : String}

/-- **The readings of a text into which blanks were inserted** are those of the text, moved. -/
theorem readings_insert_blanks (hborder : Separate u.toList v.toList) (hblank : Blank w) :
    readings (u ++ w ++ v) =
      (readings (u ++ v)).map (Reading.mapPosition (shiftFrom u.utf8ByteSize w.utf8ByteSize)) := by
  have hu : (wordsAt 0 u.toList).map
      (Reading.mapPosition (shiftFrom u.utf8ByteSize w.utf8ByteSize)) = wordsAt 0 u.toList := by
    refine map_wordsAt fun n hn => shiftFrom_of_lt ?_ _
    rwa [Nat.zero_add, ← byteLength_toList]
  have hv : (Cursor.before u.utf8ByteSize v.toList).readings.map
      (Reading.mapPosition (shiftFrom u.utf8ByteSize w.utf8ByteSize)) =
        (Cursor.before (u.utf8ByteSize + w.utf8ByteSize) v.toList).readings := by
    refine Cursor.map_readings_before fun n _ => ?_
    rw [shiftFrom_of_le (Nat.le_add_right _ _)]
    omega
  rw [readings_eq_before, readings_eq_before, String.toList_append, String.toList_append,
    String.toList_append, List.append_assoc, Cursor.readings_before_append hborder,
    Cursor.readings_before_append (hborder.insert_blanks hblank),
    Cursor.readings_before_blanks hblank, List.map_append]
  simp only [Nat.zero_add, byteLength_toList, hu, hv]

/-- Moving the nodes of trees is a congruence. -/
theorem Expr.mapPosition_congruence (f : Nat → Nat) :
    Expr.Congruence f fun d e => e = d.mapPosition f where
  literal _ _ := rfl
  binary hleft hright op p := by rw [hleft, hright, Expr.mapPosition]

/-- Answers that differ in moved nodes are answers that were moved. -/
theorem Answers.eq_map {f : Nat → Nat} {x y : Except Error Expr}
    (h : Answers f (fun d e => e = d.mapPosition f) x y) :
    y = (x.map (Expr.mapPosition f)).mapError (Error.mapPosition f) := by
  cases h with
  | ok h => rw [h]; rfl
  | error e => rfl

/-- **Blanks are insignificant.** A text into which blanks were inserted, though not between two
digits, has the same value, or the same error, and it has the same tree; the positions in the error
and in the tree are moved if they are at the place of the blanks or behind it. -/
theorem evaluate_insert_blanks (hborder : Separate u.toList v.toList) (hblank : Blank w)
    (strict : Bool) :
    evaluate (u ++ w ++ v) strict = (evaluate (u ++ v) strict).mapError
      (Error.mapPosition (shiftFrom u.utf8ByteSize w.utf8ByteSize)) ∧
    parse (u ++ w ++ v) strict =
      ((parse (u ++ v) strict).map
        (Expr.mapPosition (shiftFrom u.utf8ByteSize w.utf8ByteSize))).mapError
        (Error.mapPosition (shiftFrom u.utf8ByteSize w.utf8ByteSize)) := by
  have hreadings := readings_insert_blanks hborder hblank
  refine ⟨evaluate_of_answers (answers_of_readings Expr.agrees_congruence hreadings strict), ?_⟩
  have hanswers := answers_of_readings (Expr.mapPosition_congruence _) hreadings strict
  generalize parse (u ++ v) strict = x at hanswers
  generalize parse (u ++ w ++ v) strict = y at hanswers
  cases hanswers with
  | ok h => rw [h]; rfl
  | error e => rfl

/-- A blank of two bytes before the divisor moves the divisor and not the sign of division. Between
a literal and a parenthesis it moves the error at the end of the text. -/
theorem evaluate_insert_blanks_quotient :
    evaluate ("7/" ++ "\u0085" ++ "0") true = .error (.runtime (.divisionByZero 1)) ∧
    parse ("7/" ++ "\u0085" ++ "0") true =
      .ok (.binary .div (.literal ⟨7, by decide, by decide⟩ 0)
        (.literal ⟨0, by decide, by decide⟩ 4) 1) ∧
    evaluate ("(12" ++ " \t" ++ "") false =
      .error (.syntactic (.unexpectedToken .rightParen .endOfInput 5)) := by
  have hquotient := evaluate_insert_blanks (u := "7/") (v := "0") (w := "\u0085")
    (separate_concat (c := '/') (by decide) ['7'] _) (by decide) true
  have hopen := evaluate_insert_blanks (u := "(12") (v := "") (w := " \t") (fun _ _ _ => nofun)
    (by decide) false
  have hvalue : evaluate ("7/" ++ "0") true = .error (.runtime (.divisionByZero 1)) :=
    error_of_error? (by decide +kernel)
  have htree : parse ("7/" ++ "0") true =
      .ok (.binary .div (.literal ⟨7, by decide, by decide⟩ 0)
        (.literal ⟨0, by decide, by decide⟩ 2) 1) :=
    ok_of_toOption (by decide +kernel)
  have herror : evaluate ("(12" ++ "") false =
      .error (.syntactic (.unexpectedToken .rightParen .endOfInput 3)) :=
    error_of_error? (by decide +kernel)
  rw [hvalue, htree] at hquotient
  rw [herror] at hopen
  exact ⟨hquotient.1, hquotient.2, hopen.1⟩

end Calculator
