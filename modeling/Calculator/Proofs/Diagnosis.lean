import Calculator.Proofs.Pushdown

/-!
# Which error is reported

Whether a text is parsed, and which error is reported if it is not, can be told without building a
tree: a counter for the parentheses that are open is enough, and one bit that says whether an
operand or an operator has to come. What the counter leaves out is the part of the pushdown state
that does not influence where the machine goes. `Pushdown.count` forgets it, and the two machines
then make the same moves.

In particular the first lexeme that does not fit is the one that is reported, and nothing after it
is: a machine that stops has not seen the rest.

## Main definitions

* `Counter`, `Counter.move`: the one-counter automaton.
* `Pushdown.count`: a state of the pushdown machine as a state of the automaton.

## Main results

* `Pushdown.move_count`: the two machines move in step.
* `advance_counter_readings`: on the readings of a text the automaton stops with success if the
  text is parsed, and with the error of parsing it otherwise.
-/

namespace Calculator

/-- A state of the automaton. The number is that of the parentheses that are open. -/
inductive Counter where
  | operandExpected (depth : Nat)
  | operandSeen (depth : Nat)
  deriving DecidableEq

/-- What the automaton does at a lexeme. -/
def Counter.move (strict : Bool) : Counter → Lexeme → Move Counter Unit
  | .operandExpected depth, l =>
    match l.token with
    | .number _ => .go (.operandSeen depth)
    | .leftParen => .go (.operandExpected (depth + 1))
    | token => .stop (.error (.syntactic (.expectedFactor token.kind l.position)))
  | .operandSeen depth, l =>
    match l.token, depth with
    | .plus, _ | .minus, _ | .star, _ | .slash, _ => .go (.operandExpected depth)
    | .rightParen, d + 1 => .go (.operandSeen d)
    | token, _ + 1 =>
      .stop (.error (.syntactic (.unexpectedToken .rightParen token.kind l.position)))
    | .endOfInput, 0 => .stop (.ok ())
    | token, 0 =>
      if strict then .stop (.error (.syntactic (.trailingInput token.kind l.position)))
      else .stop (.ok ())

namespace Pushdown

/-- What the automaton knows of a state of the pushdown machine. -/
def count : Pushdown → Counter
  | .expecting _ outer => .operandExpected outer.length
  | .seen _ _ outer => .operandSeen outer.length

/-- **The two machines move in step.** They stop at the same lexemes, with the same error or both
with success. -/
theorem move_count (strict : Bool) (x : Pushdown) (l : Lexeme) :
    Move.Related (fun x n => x.count = n) (fun a b => (a.map fun _ => ()) = b)
      (move strict x l) (Counter.move strict x.count l) := by
  obtain ⟨t, p⟩ := l
  rcases x with ⟨frame, outer⟩ | ⟨e, sum, outer⟩
  · cases t <;> first | exact .go rfl | exact .stop rfl
  · -- outside all parentheses only what `strict` asks for decides, inside them only the token
    rcases outer with _ | ⟨frame, outer⟩
    · cases t <;> first | exact .go rfl | (cases strict <;> exact .stop rfl)
    · cases t <;> first | exact .go rfl | exact .stop rfl

end Pushdown

/-- **Exact diagnosis.** Reading the text from the state in which an operand is expected and no
parenthesis is open, the automaton stops with success if the text is parsed, and otherwise with the
very error that parsing it gives. -/
theorem advance_counter_readings (text : String) (strict : Bool) :
    advance (Counter.move strict) (.operandExpected 0) (readings text) =
      .stop ((parse text strict).map fun _ => ()) := by
  have hstep : ∀ x n r, Pushdown.count x = n →
      Move.Related (fun x n => Pushdown.count x = n) (fun a b => (a.map fun _ => ()) = b)
        (Move.atReading (Pushdown.move strict) x r)
        (Move.atReading (Counter.move strict) n (id r)) := by
    rintro x n r rfl
    cases r with
    | ok l => exact Pushdown.move_count strict x l
    | error e => exact .stop rfl
  have hrun := advance_related hstep (s := Pushdown.start) rfl (readings text)
  rw [Pushdown.advance_readings, List.map_id] at hrun
  change Move.Related _ _ _ (advance (Counter.move strict) (.operandExpected 0) _) at hrun
  generalize advance (Counter.move strict) (.operandExpected 0) (readings text) = x at hrun
  cases hrun with
  | stop h => rw [h]

end Calculator
