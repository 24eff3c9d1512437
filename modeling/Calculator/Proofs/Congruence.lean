import Calculator.Proofs.Derivations
import Calculator.Proofs.Parametricity

/-!
# Expressions in parentheses

An expression in parentheses is one operand for whatever stands around it. What it contains comes
to light in two ways only: its value, or its failure to have one, takes part in the value of the
whole, and its length moves the text that follows it. So if it has a value, then another expression
with the same value can take its place, in any text at all. The text around it may be misspelled or
malformed, or fail to have a value; it may even be complete before the parentheses are reached.

The errors of the whole are all found outside the parentheses. This follows from the same fact: an
error found inside would have to move when positions inside are moved, and none does.

## Main results

* `words_of_parse`, `wordsAt_of_parse`: the words of a text that is an expression derive its tree.
* `Pushdown.advance_group`: the machine on an expression in parentheses.
* `evaluate_group_of_map`: replacing an expression in parentheses, for any map of positions that is
  right outside the parentheses.
* `evaluate_group_congr`: what becomes of the value, of the error and of its position.
-/

namespace Calculator

/-- **The words of an expression**, when nothing else is in the text, derive its tree. -/
theorem words_of_parse {a : String} {t : Expr} (h : parse a true = .ok t) :
    ∃ ls, wordsAt 0 a.toList = ls.map .ok ∧ Derives .expression ls t := by
  obtain ⟨next, ⟨ls, rest, hreadings, hderives⟩, -, hending⟩ := beginsWith_of_parse h
  have hend := Pushdown.token_eq_of_ending hending
  -- the end, which comes after the expression, is not among the words
  rcases words_of_readings hreadings with ⟨hwords, -⟩ | ⟨others, hwords⟩
  · exact ⟨ls, hwords, hderives⟩
  · have hmem : .ok next ∈ wordsAt 0 a.toList := by simp [hwords]
    exact absurd hend (token_ne_endOfInput_of_mem_wordsAt hmem)

/-- The words of an expression that begins at an offset derive its tree, moved there. -/
theorem wordsAt_of_parse {a : String} {t : Expr} (h : parse a true = .ok t) (p : Nat) :
    ∃ ls, wordsAt p a.toList = ls.map .ok ∧ Derives .expression ls (t.mapPosition (p + ·)) := by
  obtain ⟨ls, hwords, hderives⟩ := words_of_parse h
  refine ⟨ls.map (Lexeme.mapPosition (p + ·)), ?_, hderives.mapPosition (p + ·)⟩
  rw [← map_wordsAt_zero, hwords, List.map_map, List.map_map]
  rfl

/-- The words of a text in parentheses. -/
theorem wordsAt_group (a : String) (p : Nat) :
    wordsAt p ('(' :: (a.toList ++ [')'])) = .ok ⟨.leftParen, p⟩ ::
      (wordsAt (p + 1) a.toList ++ [.ok ⟨.rightParen, p + 1 + a.utf8ByteSize⟩]) := by
  rw [wordsAt_sign rfl, wordsAt_append (separate_cons (by decide) _ _), wordsAt_sign rfl,
    wordsAt_nil, byteLength_toList]

namespace Pushdown

variable {f : Nat → Nat}

/-- **The machine on an expression in parentheses** reads a factor. -/
theorem advance_group {a : String} {t : Expr} (h : parse a true = .ok t) (strict : Bool)
    (frame : Frame) (outer : List Frame) (p : Nat) :
    advance (move strict) (.expecting frame outer) (wordsAt p ('(' :: (a.toList ++ [')']))) =
      .go (afterFactor (t.mapPosition (p + 1 + ·)) frame outer) := by
  obtain ⟨ls, hwords, hderives⟩ := wordsAt_of_parse h (p + 1)
  obtain ⟨_, hx, rfl⟩ := advance_derives (.parens p (p + 1 + a.utf8ByteSize) hderives) strict frame
    outer trivial
  rw [wordsAt_group, hwords, ← hx]
  simp

/-- A machine that expects no operand stops at an opening parenthesis. -/
theorem move_seen_leftParen (strict : Bool) (e : Expr) (sum : Option Pending)
    (outer : List Frame) (p : Nat) :
    ∃ answer, move strict (.seen e sum outer) ⟨.leftParen, p⟩ = .stop answer := by
  cases outer <;> exact ⟨_, rfl⟩

/-- Expressions with the same value, in parentheses, in states that agree. -/
theorem group_related {a b : String} {n : Number} (ha : evaluate a true = .ok n)
    (hb : evaluate b true = .ok n) {p : Nat} (hp : f p = p) {x y : Pushdown}
    (h : Related f (Expr.Agrees f) x y) (strict : Bool) :
    Move.Related (Related f (Expr.Agrees f)) (Answers f (Expr.Agrees f))
      (advance (move strict) x (wordsAt p ('(' :: (a.toList ++ [')']))))
      (advance (move strict) y (wordsAt p ('(' :: (b.toList ++ [')'])))) := by
  rcases h with ⟨hframe, houter⟩ | ⟨hterm, hsum, houter⟩
  · obtain ⟨s, hs, hsvalue⟩ := exists_tree_of_evaluate ha
    obtain ⟨t, ht, htvalue⟩ := exists_tree_of_evaluate hb
    rw [advance_group hs, advance_group ht]
    refine .go (afterFactor_related Expr.agrees_congruence ?_ hframe houter)
    exact Expr.agrees_of_ok (Expr.result_evaluate_mapPosition hsvalue _)
      (Expr.result_evaluate_mapPosition htvalue _)
  · have hmove := move_related Expr.agrees_congruence (.seen hterm hsum houter) strict
      ⟨.leftParen, p⟩
    rw [Lexeme.mapPosition, hp] at hmove
    obtain ⟨answer, hx⟩ := move_seen_leftParen strict _ _ _ p
    obtain ⟨answer', hy⟩ := move_seen_leftParen strict _ _ _ p
    rw [hx, hy] at hmove
    rwa [wordsAt_group, wordsAt_group, advance_of_stop hx, advance_of_stop hy]

end Pushdown

/-- The readings of a text in which a part is in parentheses. -/
theorem readings_group (u a v : String) :
    readings (u ++ "(" ++ a ++ ")" ++ v) =
      wordsAt 0 u.toList ++ (wordsAt u.utf8ByteSize ('(' :: (a.toList ++ [')'])) ++
        (Cursor.before (u.utf8ByteSize + 1 + a.utf8ByteSize + 1) v.toList).readings) := by
  have htext : (u ++ "(" ++ a ++ ")" ++ v).toList =
      u.toList ++ ('(' :: a.toList ++ [')'] ++ v.toList) := by
    simp [String.toList_append]
  have hopen : Separate u.toList ('(' :: a.toList ++ [')'] ++ v.toList) :=
    separate_cons (by decide) _ _
  have hclose : Separate ('(' :: a.toList ++ [')']) v.toList := separate_concat (by decide) _ _
  have hsize : u.utf8ByteSize + byteLength ('(' :: a.toList ++ [')']) =
      u.utf8ByteSize + 1 + a.utf8ByteSize + 1 := by
    have hparens : '('.utf8Size = 1 ∧ ')'.utf8Size = 1 := ⟨rfl, rfl⟩
    simp only [byteLength_cons, byteLength_append, byteLength_nil, byteLength_toList, hparens]
    omega
  rw [readings_eq_before, htext, Cursor.readings_before_append hopen,
    Cursor.readings_before_append hclose, Nat.zero_add, byteLength_toList, hsize, List.cons_append]

/-- **Replacing an expression in parentheses** by another one with the same value, for any map of
positions that is right outside the parentheses. -/
theorem evaluate_group_of_map {a b : String} {n : Number} (ha : evaluate a true = .ok n)
    (hb : evaluate b true = .ok n) (u v : String) (strict : Bool) {f : Nat → Nat}
    (hbefore : ∀ p ≤ u.utf8ByteSize, f p = p)
    (hafter : ∀ p ≥ u.utf8ByteSize + 1 + a.utf8ByteSize,
      f p = p - a.utf8ByteSize + b.utf8ByteSize) :
    evaluate (u ++ "(" ++ b ++ ")" ++ v) strict =
      (evaluate (u ++ "(" ++ a ++ ")" ++ v) strict).mapError (Error.mapPosition f) := by
  have hu : (wordsAt 0 u.toList).map (Reading.mapPosition f) = wordsAt 0 u.toList := by
    refine map_wordsAt fun m hm => hbefore _ ?_
    rw [byteLength_toList] at hm
    omega
  have hv : (Cursor.before (u.utf8ByteSize + 1 + a.utf8ByteSize + 1) v.toList).readings.map
      (Reading.mapPosition f) =
        (Cursor.before (u.utf8ByteSize + 1 + b.utf8ByteSize + 1) v.toList).readings := by
    refine Cursor.map_readings_before fun m _ => ?_
    rw [hafter _ (by omega)]
    omega
  have hrun : Move.Related (Pushdown.Related f (Expr.Agrees f)) (Answers f (Expr.Agrees f))
      (advance (Pushdown.move strict) Pushdown.start (readings (u ++ "(" ++ a ++ ")" ++ v)))
      (advance (Pushdown.move strict) Pushdown.start (readings (u ++ "(" ++ b ++ ")" ++ v))) := by
    rw [readings_group, readings_group, ← hv]
    refine Move.Related.append ?_ fun x y hxy => Move.Related.append ?_ fun x y hxy => ?_
    · have h := Pushdown.advance_mapPosition Expr.agrees_congruence
        (Pushdown.related_start (f := f)) strict (wordsAt 0 u.toList)
      rwa [hu] at h
    · exact Pushdown.group_related ha hb (hbefore _ Nat.le.refl) hxy strict
    · exact Pushdown.advance_mapPosition Expr.agrees_congruence hxy strict _
  rw [Pushdown.advance_readings, Pushdown.advance_readings] at hrun
  cases hrun with
  | stop h => exact evaluate_of_answers h

/-- **Congruence for expressions in parentheses.** The whole has the same value with either of two
expressions that have the same value, or the same error. No error is found inside the parentheses,
and one that is found after them moves with the text there. -/
theorem evaluate_group_congr {a b : String} {n : Number} (ha : evaluate a true = .ok n)
    (hb : evaluate b true = .ok n) (u v : String) (strict : Bool) :
    evaluate (u ++ "(" ++ b ++ ")" ++ v) strict =
      (evaluate (u ++ "(" ++ a ++ ")" ++ v) strict).mapError (Error.mapPosition fun p =>
        if p ≤ u.utf8ByteSize then p else p - a.utf8ByteSize + b.utf8ByteSize) ∧
    ∀ e, evaluate (u ++ "(" ++ a ++ ")" ++ v) strict = .error e →
      e.position ≤ u.utf8ByteSize ∨ u.utf8ByteSize + 1 + a.utf8ByteSize ≤ e.position := by
  refine ⟨evaluate_group_of_map ha hb u v strict (fun p hp => if_pos hp)
    (fun p hp => if_neg (by omega)), fun e he => ?_⟩
  by_contra hinside
  -- an error inside the parentheses would move when `a` is replaced by itself
  have hself := evaluate_group_of_map ha ha u v strict
    (f := fun p =>
      if p ≤ u.utf8ByteSize ∨ u.utf8ByteSize + 1 + a.utf8ByteSize ≤ p then p else p + 1)
    (fun p hp => if_pos (.inl hp)) (fun p hp => (if_pos (.inr hp)).trans (by omega))
  rw [he] at hself
  have hposition := congrArg Error.position (Except.error.inj hself)
  rw [Error.position_mapPosition, if_neg hinside] at hposition
  omega

/-- A quotient by zero is found after the sum, and moves when the sum is replaced by its value. -/
theorem evaluate_group_congr_sum :
    evaluate "1+1" true = .ok (.integer ⟨2, by decide, by decide⟩) ∧
    evaluate "2" true = .ok (.integer ⟨2, by decide, by decide⟩) ∧
    evaluate ("3 * " ++ "(" ++ "2" ++ ")" ++ " / 0") true =
      (evaluate ("3 * " ++ "(" ++ "1+1" ++ ")" ++ " / 0") true).mapError
        (Error.mapPosition fun p => if p ≤ 4 then p else p - 3 + 1) := by
  have ha : evaluate "1+1" true = .ok (.integer ⟨2, by decide, by decide⟩) :=
    ok_of_toOption (by decide +kernel)
  have hb : evaluate "2" true = .ok (.integer ⟨2, by decide, by decide⟩) :=
    ok_of_toOption (by decide +kernel)
  exact ⟨ha, hb, (evaluate_group_congr ha hb "3 * " " / 0" true).1⟩

end Calculator
