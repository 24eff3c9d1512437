import Calculator.Proofs.Derivations
import Calculator.Proofs.Diagnosis
import Calculator.Proofs.Lexing

/-!
# The first token that cannot stand

An error in the order of the tokens is reported at the first token that makes it impossible to go
on to an expression, and not later: up to there the tokens are the beginning of some expression,
and with that token they are not. What counts is the language of the grammar, as a set of strings
of kinds, so that both statements are about all continuations and not about what the parser would
do next.

The strings of the language are the ones that take the one-counter automaton from its initial state
to the state in which an operand has been seen and no parenthesis is open. One direction follows a
derivation. The other keeps, for each state, what the tokens so far can be completed to: inside `n`
open parentheses stand `n` beginnings of expressions, one within the other, and the innermost one is
an expression or lacks an operand. From there a completion is a number, if it is lacking, and `n`
closing parentheses.

## Main definitions

* `kinds`, `Sentence`: the strings of kinds that the grammar derives.
* `Counter.next?`, `Counter.run?`: the automaton without its answers.
* `LacksOperand`, `Opens`, `Counter.Admits`: what has been read in a state.

## Main results

* `sentence_kinds_iff`: the automaton accepts the language of the grammar.
* `viable_kinds_iff`: it gets stuck where no continuation is in the language.
* `exists_of_parse_error`: where parsing a text stops with an error.
* `parse_error_at_first_unviable`: errors are reported at the first possible token.
-/

namespace Calculator

/-- The kinds of the tokens of a list of lexemes. -/
def kinds (ls : List Lexeme) : List Token.Kind := ls.map fun l => l.token.kind

/-- The language of the grammar: the strings of kinds that an expression can have. -/
def Sentence (ks : List Token.Kind) : Prop := ∃ ls e, Derives .expression ls e ∧ kinds ls = ks

@[simp] theorem kinds_nil : kinds [] = [] := rfl

@[simp] theorem kinds_cons (l : Lexeme) (ls : List Lexeme) :
    kinds (l :: ls) = l.token.kind :: kinds ls := rfl

@[simp] theorem kinds_append (ls rs : List Lexeme) : kinds (ls ++ rs) = kinds ls ++ kinds rs :=
  List.map_append

theorem sentence_kinds {ls : List Lexeme} {e : Expr} (h : Derives .expression ls e) :
    Sentence (kinds ls) := ⟨ls, e, h, rfl⟩

/-! ### The automaton on strings of kinds -/

namespace Counter

/-- The state after a token of a kind; `none` if the automaton stops there. -/
def next? : Counter → Token.Kind → Option Counter
  | .operandExpected depth, .number => some (.operandSeen depth)
  | .operandExpected depth, .leftParen => some (.operandExpected (depth + 1))
  | .operandSeen depth, .plus | .operandSeen depth, .minus | .operandSeen depth, .star
  | .operandSeen depth, .slash => some (.operandExpected depth)
  | .operandSeen (depth + 1), .rightParen => some (.operandSeen depth)
  | _, _ => none

/-- The state after a string of kinds; `none` if the automaton stops on the way. -/
def run? (s : Counter) (ks : List Token.Kind) : Option Counter := ks.foldlM next? s

@[simp] theorem run?_nil (s : Counter) : s.run? [] = some s := rfl

@[simp] theorem run?_cons (s : Counter) (k : Token.Kind) (ks : List Token.Kind) :
    s.run? (k :: ks) = (s.next? k).bind fun t => t.run? ks := rfl

@[simp] theorem run?_append (s : Counter) (ks ks' : List Token.Kind) :
    s.run? (ks ++ ks') = (s.run? ks).bind fun t => t.run? ks' := by
  rw [run?, List.foldlM_append]
  rfl

theorem next?_operator (op : Operator) (depth : Nat) :
    next? (.operandSeen depth) op.token.kind = some (.operandExpected depth) := by
  cases op <;> rfl

/-- Only a parenthesis, a number and an operator take the automaton further. -/
theorem next?_eq_some_cases {s t : Counter} {l : Lexeme} (h : s.next? l.token.kind = some t) :
    (∃ depth value, s = .operandExpected depth ∧ l.token = .number value ∧
      t = .operandSeen depth) ∨
    (∃ depth, s = .operandExpected depth ∧ l.token = .leftParen ∧
      t = .operandExpected (depth + 1)) ∨
    (∃ depth op, s = .operandSeen depth ∧ l.token = Operator.token op ∧
      t = .operandExpected depth) ∨
    ∃ depth, s = .operandSeen (depth + 1) ∧ l.token = .rightParen ∧ t = .operandSeen depth := by
  obtain ⟨token, p⟩ := l
  rcases s with depth | depth
  · cases token <;> simp_all [next?, Token.kind]
  · cases token <;> rcases depth with _ | depth <;> simp_all [next?, Token.kind]
    all_goals first | exact ⟨.add, rfl⟩ | exact ⟨.sub, rfl⟩ | exact ⟨.mul, rfl⟩ | exact ⟨.div, rfl⟩

/-- A phrase is one operand, in parentheses or not. -/
theorem run?_of_derives {c : Category} {ls : List Lexeme} {e : Expr} (h : Derives c ls e)
    (depth : Nat) : run? (.operandExpected depth) (kinds ls) = some (.operandSeen depth) := by
  induction h generalizing depth with
  | number value p => rfl
  | parens p q _ ih =>
    rw [List.cons_append, kinds_cons, kinds_append, run?_cons]
    change run? (.operandExpected (depth + 1)) _ = _
    rw [run?_append, ih (depth + 1)]
    rfl
  | ofFactor _ ih => exact ih depth
  | ofTerm _ ih => exact ih depth
  | operation op p _ _ ihleft ihright =>
    rw [kinds_append, run?_append, ihleft depth, Option.bind_some, kinds_cons, run?_cons,
      next?_operator, Option.bind_some, ihright depth]

end Counter

/-! ### What has been read in a state -/

/-- An operand put after the lexemes makes them an expression. -/
def LacksOperand (ls : List Lexeme) : Prop :=
  ∀ rs f, Derives .factor rs f → ∃ e, Derives .expression (ls ++ rs) e

theorem lacksOperand_nil : LacksOperand [] := fun _ f h => ⟨f, .ofTerm (.ofFactor h)⟩

theorem Operator.category_cases (op : Operator) :
    op.category = .expression ∨ op.category = .term := by
  cases op <;> simp [Operator.category]

theorem Derives.sum {op : Operator} (hop : op.category = .expression) {ls rs : List Lexeme}
    {left right : Expr} (hleft : Derives .expression ls left) (hright : Derives .term rs right)
    (p : Nat) : Derives .expression (ls ++ ⟨op.token, p⟩ :: rs) (.binary op left right p) := by
  cases op with
  | add => exact .operation .add p hleft hright
  | sub => exact .operation .sub p hleft hright
  | mul | div => cases hop

theorem Derives.product {op : Operator} (hop : op.category = .term) {ls rs : List Lexeme}
    {left right : Expr} (hleft : Derives .term ls left) (hright : Derives .factor rs right)
    (p : Nat) : Derives .term (ls ++ ⟨op.token, p⟩ :: rs) (.binary op left right p) := by
  cases op with
  | add | sub => cases hop
  | mul => exact .operation .mul p hleft hright
  | div => exact .operation .div p hleft hright

/-- An expression is a term, or it ends with one after a sign of addition or subtraction. -/
theorem Derives.expression_cases {ls : List Lexeme} {e : Expr} (h : Derives .expression ls e) :
    Derives .term ls e ∨ ∃ op : Operator, op.category = .expression ∧ ∃ us ts left right p,
      ls = us ++ ⟨op.token, p⟩ :: ts ∧ Derives .expression us left ∧ Derives .term ts right := by
  obtain ⟨c, hc⟩ : ∃ c, c = Category.expression := ⟨_, rfl⟩
  rw [← hc] at h
  cases h with
  | number | parens | ofFactor => cases hc
  | ofTerm h => exact .inl h
  | @operation us ts left right op p hleft hright =>
    have hoperand : op.operand = .term := by
      revert hc
      cases op <;> decide
    rw [hc] at hleft
    rw [hoperand] at hright
    exact .inr ⟨op, hc, us, ts, left, right, p, rfl, hleft, hright⟩

/-- **An operator after an expression lacks an operand only**, whatever that does to the tree: the
operand of an operator that binds more tightly goes into the last term. -/
theorem lacksOperand_operator {ls : List Lexeme} {e : Expr} (h : Derives .expression ls e)
    (op : Operator) (p : Nat) : LacksOperand (ls ++ [⟨op.token, p⟩]) := by
  intro rs f hf
  rw [List.append_assoc, List.singleton_append]
  rcases op.category_cases with hop | hop
  · exact ⟨_, h.sum hop (.ofFactor hf) p⟩
  · rcases h.expression_cases with hterm |
      ⟨other, hother, us, ts, left, right, q, rfl, hleft, hright⟩
    · exact ⟨_, .ofTerm (hterm.product hop hf p)⟩
    · have hwhole := hleft.sum hother (hright.product hop hf p) q
      rw [← List.cons_append, ← List.append_assoc] at hwhole
      exact ⟨_, hwhole⟩

/-- Lexemes that end with an open parenthesis, one of `n`; before each of them an operand was
lacking. -/
inductive Opens : Nat → List Lexeme → Prop where
  | nil : Opens 0 []
  | paren {depth : Nat} {outer inner : List Lexeme} (p : Nat) (houter : Opens depth outer)
    (hinner : LacksOperand inner) : Opens (depth + 1) (outer ++ inner ++ [⟨.leftParen, p⟩])

/-- What has been read when the automaton is in a state: open parentheses, and after them a
beginning that lacks an operand, or an expression. -/
def Counter.Admits : Counter → List Lexeme → Prop
  | .operandExpected depth, ls =>
    ∃ outer inner, ls = outer ++ inner ∧ Opens depth outer ∧ LacksOperand inner
  | .operandSeen depth, ls =>
    ∃ outer inner e, ls = outer ++ inner ∧ Opens depth outer ∧ Derives .expression inner e

namespace Counter.Admits

variable {depth : Nat} {ls : List Lexeme}

theorem start : Admits (.operandExpected 0) [] := ⟨[], [], rfl, .nil, lacksOperand_nil⟩

theorem number (h : Admits (.operandExpected depth) ls) (value : Integer) (p : Nat) :
    Admits (.operandSeen depth) (ls ++ [⟨.number value, p⟩]) := by
  obtain ⟨outer, inner, rfl, houter, hinner⟩ := h
  obtain ⟨e, he⟩ := hinner _ _ (.number value p)
  exact ⟨outer, _, e, List.append_assoc _ _ _, houter, he⟩

theorem leftParen (h : Admits (.operandExpected depth) ls) (p : Nat) :
    Admits (.operandExpected (depth + 1)) (ls ++ [⟨.leftParen, p⟩]) := by
  obtain ⟨outer, inner, rfl, houter, hinner⟩ := h
  exact ⟨_, [], (List.append_nil _).symm, .paren p houter hinner, lacksOperand_nil⟩

theorem operator (h : Admits (.operandSeen depth) ls) (op : Operator) (p : Nat) :
    Admits (.operandExpected depth) (ls ++ [⟨op.token, p⟩]) := by
  obtain ⟨outer, inner, e, rfl, houter, he⟩ := h
  exact ⟨outer, _, List.append_assoc _ _ _, houter, lacksOperand_operator he op p⟩

theorem rightParen (h : Admits (.operandSeen (depth + 1)) ls) (p : Nat) :
    Admits (.operandSeen depth) (ls ++ [⟨.rightParen, p⟩]) := by
  obtain ⟨_, inner, e, rfl, houter, he⟩ := h
  cases houter with
  | @paren _ outer before q houter hbefore =>
    obtain ⟨t, ht⟩ := hbefore _ _ (.parens q p he)
    exact ⟨outer, _, t, by simp, houter, ht⟩

/-- **One step of the automaton preserves what has been read.** -/
theorem next {s t : Counter} {l : Lexeme} (h : s.Admits ls)
    (hnext : s.next? l.token.kind = some t) : t.Admits (ls ++ [l]) := by
  rcases next?_eq_some_cases hnext with ⟨depth, value, rfl, hl, rfl⟩ | ⟨depth, rfl, hl, rfl⟩ |
    ⟨depth, op, rfl, hl, rfl⟩ | ⟨depth, rfl, hl, rfl⟩ <;> rw [Lexeme.eq_of_token hl]
  · exact h.number value l.position
  · exact h.leftParen l.position
  · exact h.operator op l.position
  · exact h.rightParen l.position

/-- **A run preserves what has been read.** -/
theorem run {s t : Counter} {rs : List Lexeme} (h : s.Admits ls)
    (hrun : s.run? (kinds rs) = some t) : t.Admits (ls ++ rs) := by
  induction rs generalizing s ls with
  | nil =>
    obtain rfl := Option.some.inj hrun
    rwa [List.append_nil]
  | cons l rs ih =>
    rw [kinds_cons, Counter.run?_cons, Option.bind_eq_some_iff] at hrun
    obtain ⟨u, hnext, hrun⟩ := hrun
    have h' := ih (h.next hnext) hrun
    rwa [List.append_assoc, List.singleton_append] at h'

/-- Outside all parentheses an expression has been read. -/
theorem sentence (h : Admits (.operandSeen 0) ls) : Sentence (kinds ls) := by
  obtain ⟨_, inner, e, rfl, houter, he⟩ := h
  cases houter
  exact sentence_kinds he

/-- The open parentheses can be closed. -/
theorem exists_sentence_of_seen (h : Admits (.operandSeen depth) ls) :
    ∃ w, Sentence (kinds ls ++ w) := by
  induction depth generalizing ls with
  | zero => exact ⟨[], by simpa using h.sentence⟩
  | succ depth ih =>
    obtain ⟨w, hw⟩ := ih (h.rightParen 0)
    exact ⟨.rightParen :: w, by simpa [Token.kind] using hw⟩

/-- **Whatever has been read can be completed**, by an operand if one is lacking and by closing the
parentheses. -/
theorem exists_sentence {s : Counter} (h : s.Admits ls) : ∃ w, Sentence (kinds ls ++ w) := by
  cases s with
  | operandExpected depth =>
    obtain ⟨w, hw⟩ := (h.number default 0).exists_sentence_of_seen
    exact ⟨.number :: w, by simpa [Token.kind] using hw⟩
  | operandSeen depth => exact h.exists_sentence_of_seen

end Counter.Admits

/-! ### The automaton and the language -/

/-- **The automaton accepts the language of the grammar.** -/
theorem sentence_kinds_iff (ls : List Lexeme) :
    Sentence (kinds ls) ↔
      Counter.run? (.operandExpected 0) (kinds ls) = some (.operandSeen 0) := by
  constructor
  · rintro ⟨rs, e, hderives, hkinds⟩
    rw [← hkinds]
    exact Counter.run?_of_derives hderives 0
  · intro h
    exact (Counter.Admits.start.run h).sentence

/-- **The automaton gets stuck where no continuation is in the language.** -/
theorem viable_kinds_iff (ls : List Lexeme) :
    (∃ w, Sentence (kinds ls ++ w)) ↔
      ∃ s, Counter.run? (.operandExpected 0) (kinds ls) = some s := by
  constructor
  · rintro ⟨w, rs, e, hderives, hkinds⟩
    have hrun := Counter.run?_of_derives hderives 0
    rw [hkinds, Counter.run?_append, Option.bind_eq_some_iff] at hrun
    obtain ⟨s, hs, -⟩ := hrun
    exact ⟨s, hs⟩
  · rintro ⟨s, hs⟩
    exact (Counter.Admits.start.run hs).exists_sentence

/-! ### The parser and the automaton -/

namespace Pushdown

variable {strict : Bool} {x y : Pushdown} {l : Lexeme}

/-- The automaton without its answers goes on where the pushdown machine does. -/
theorem next?_count (strict : Bool) (x : Pushdown) (l : Lexeme) :
    x.count.next? l.token.kind =
      match move strict x l with
      | .go y => some y.count
      | .stop _ => none := by
  obtain ⟨t, p⟩ := l
  rcases x with ⟨frame, outer⟩ | ⟨e, sum, outer⟩
  · cases t <;> rfl
  · rcases outer with _ | ⟨frame, outer⟩ <;> cases t <;> rfl

theorem run?_count {ls : List Lexeme} (h : advance (move strict) x (ls.map .ok) = .go y) :
    x.count.run? (kinds ls) = some y.count := by
  induction ls generalizing x with
  | nil =>
    cases h
    rfl
  | cons l ls ih =>
    rw [kinds_cons, Counter.run?_cons, next?_count strict x l]
    rw [List.map_cons, advance, Move.atReading] at h
    cases hmove : move strict x l with
    | go z =>
      rw [hmove] at h
      exact ih h
    | stop answer =>
      rw [hmove] at h
      cases h

/-- An error names the lexeme at which the machine stops. At the end of the input it is an error to
stop only where no expression is complete. -/
theorem move_error {e : Error} (h : move strict x l = .stop (.error e)) :
    ∃ c : SyntaxError, e = .syntactic c ∧ c.position = l.position ∧ c.found = l.token.kind ∧
      (l.token = .endOfInput → x.count ≠ .operandSeen 0) := by
  obtain ⟨t, p⟩ := l
  rcases x with ⟨frame, outer⟩ | ⟨d, sum, outer⟩
  · cases t <;> cases h <;> exact ⟨_, rfl, rfl, rfl, fun _ => nofun⟩
  · rcases outer with _ | ⟨frame, outer⟩
    · cases t <;> cases strict <;> cases h <;> exact ⟨_, rfl, rfl, rfl, nofun⟩
    · cases t <;> cases h <;> exact ⟨_, rfl, rfl, rfl, fun _ => nofun⟩

/-- An error is found where the machine stops. -/
theorem position_of_stop {r : Reading} {e : Error}
    (h : Move.atReading (move strict) x r = .stop (.error e)) : r.position = e.position := by
  cases r with
  | error d =>
    cases h
    rfl
  | ok l =>
    obtain ⟨c, rfl, hposition, -⟩ := move_error h
    exact hposition.symm

end Pushdown

/-- **An error of parsing is about one reading**, and the readings before it are lexemes: it is the
error that was read there, or the lexeme that was read there cannot stand there. -/
theorem exists_reading_of_parse_error {text : String} {strict : Bool} {e : Error}
    (h : parse text strict = .error e) :
    ∃ (ls : List Lexeme) (r : Reading) (rest : List Reading),
      readings text = ls.map .ok ++ r :: rest ∧
      ((∃ d, r = .error d ∧ e = .lexical d) ∨
        ∃ l c, r = .ok l ∧ e = .syntactic c ∧ c.position = l.position ∧
          c.found = l.token.kind) := by
  have hstop := Pushdown.advance_readings text strict
  rw [h] at hstop
  obtain ⟨ls, r, rest, x, hreadings, -, hr⟩ := exists_of_advance_stop hstop
  refine ⟨ls, r, rest, hreadings, ?_⟩
  cases r with
  | error d =>
    cases hr
    exact .inl ⟨d, rfl, rfl⟩
  | ok l =>
    obtain ⟨c, rfl, hposition, hfound, -⟩ := Pushdown.move_error hr
    exact .inr ⟨l, c, rfl, rfl, hposition, hfound⟩

/-- **Where parsing a text stops with an error.** The readings before are lexemes that take the
automaton to some state; at the reading that the error is about it is stuck. -/
theorem exists_of_parse_error {text : String} {strict : Bool} {e : Error}
    (h : parse text strict = .error e) :
    ∃ (ls : List Lexeme) (r : Reading) (rest : List Reading) (s : Counter),
      readings text = ls.map .ok ++ r :: rest ∧ r.position = e.position ∧
      Counter.run? (.operandExpected 0) (kinds ls) = some s ∧
      ∀ c, e = .syntactic c → ∃ x : Lexeme, r = .ok x ∧ c.found = x.token.kind ∧
        s.next? x.token.kind = none ∧ (x.token = .endOfInput → s ≠ .operandSeen 0) := by
  have hstop := Pushdown.advance_readings text strict
  rw [h] at hstop
  obtain ⟨ls, r, rest, y, hreadings, hgo, hmove⟩ := exists_of_advance_stop hstop
  refine ⟨ls, r, rest, y.count, hreadings, Pushdown.position_of_stop hmove,
    Pushdown.run?_count hgo, ?_⟩
  rintro c rfl
  cases r with
  | error d => cases hmove
  | ok l =>
    obtain ⟨d, hd, -, hfound, hend⟩ := Pushdown.move_error hmove
    obtain rfl := Error.syntactic.inj hd
    have hnext := Pushdown.next?_count strict y l
    rw [Move.atReading] at hmove
    rw [hmove] at hnext
    exact ⟨l, rfl, hfound, hnext, hend⟩

/-- The readings found before one of them, and at its place. -/
theorem filter_position_readings {text : String} {as bs : List Reading} {r : Reading}
    (h : readings text = as ++ r :: bs) :
    (readings text).filter (fun s => s.position < r.position) = as ∧
      (readings text).filter (fun s => s.position = r.position) = [r] := by
  have hsorted := pairwise_position_readings text
  rw [h, List.pairwise_append, List.pairwise_cons] at hsorted
  obtain ⟨-, ⟨hafter, -⟩, hbefore⟩ := hsorted
  have has : ∀ s ∈ as, s.position < r.position := fun s hs => hbefore s hs r List.mem_cons_self
  rw [h, List.filter_append, List.filter_append, List.filter_cons, List.filter_cons]
  constructor
  · rw [List.filter_eq_self.mpr (by simpa using has), List.filter_eq_nil_iff.mpr]
    · simp
    · intro s hs
      have := hafter s hs
      simp only [decide_eq_true_eq]
      omega
  · rw [List.filter_eq_nil_iff.mpr, List.filter_eq_nil_iff.mpr]
    · simp
    · intro s hs
      have := hafter s hs
      simp only [decide_eq_true_eq]
      omega
    · intro s hs
      have := has s hs
      simp only [decide_eq_true_eq]
      omega

/-- **Errors are reported at the first possible token.** Whatever is read before the place of an
error of spelling or of order are tokens, and they are the beginning of a string of the language.
What stands at the place of an error of order is a token after which no string of the language goes
on; or it is the end of the input, and the tokens before it are no string of the language. -/
theorem parse_error_at_first_unviable {text : String} {strict : Bool} {e : Error}
    (h : parse text strict = .error e) :
    ∃ ls : List Lexeme,
      (readings text).filter (fun r => r.position < e.position) = ls.map .ok ∧
      (∃ w, Sentence (kinds ls ++ w)) ∧
      ∀ c, e = .syntactic c → ∃ x : Lexeme,
        (readings text).filter (fun r => r.position = e.position) = [.ok x] ∧
        c.found = x.token.kind ∧
        (x.token ≠ .endOfInput → ¬ ∃ w, Sentence (kinds ls ++ x.token.kind :: w)) ∧
        (x.token = .endOfInput → ¬ Sentence (kinds ls)) := by
  obtain ⟨ls, r, rest, s, hreadings, hposition, hrun, hsyntactic⟩ := exists_of_parse_error h
  obtain ⟨hbefore, hat⟩ := filter_position_readings hreadings
  rw [hposition] at hbefore hat
  refine ⟨ls, hbefore, (viable_kinds_iff ls).mpr ⟨s, hrun⟩, fun c hc => ?_⟩
  obtain ⟨x, rfl, hfound, hstuck, hend⟩ := hsyntactic c hc
  refine ⟨x, hat, hfound, fun _ => ?_, fun hx => ?_⟩
  · rintro ⟨w, rs, d, hderives, hkinds⟩
    have hwhole := Counter.run?_of_derives hderives 0
    rw [hkinds, Counter.run?_append, hrun, Option.bind_some, Counter.run?_cons, hstuck] at hwhole
    cases hwhole
  · rw [sentence_kinds_iff, hrun]
    exact fun heq => hend hx (Option.some.inj heq)

/-- Inside parentheses a number cannot follow a number, although what stands before it can be
completed. -/
theorem parse_error_at_first_unviable_number :
    parse "2*(1 3)" false = .error (.syntactic (.unexpectedToken .rightParen .number 5)) ∧
    ∃ ls : List Lexeme,
      (readings "2*(1 3)").filter (fun r => r.position < 5) = ls.map .ok ∧
      (∃ w, Sentence (kinds ls ++ w)) ∧
      ∃ x : Lexeme, (readings "2*(1 3)").filter (fun r => r.position = 5) = [.ok x] ∧
        x.token.kind = .number ∧ ¬ ∃ w, Sentence (kinds ls ++ .number :: w) := by
  have h : parse "2*(1 3)" false =
      .error (.syntactic (.unexpectedToken .rightParen .number 5)) :=
    error_of_error? (by decide +kernel)
  obtain ⟨ls, hbefore, hviable, hsyntactic⟩ := parse_error_at_first_unviable h
  obtain ⟨x, hat, hkind, hstuck, -⟩ := hsyntactic _ rfl
  have hnumber : x.token.kind = .number := hkind.symm
  refine ⟨h, ls, hbefore, hviable, x, hat, hnumber, ?_⟩
  rw [← hnumber]
  exact hstuck fun hend => by rw [hend] at hnumber; cases hnumber

end Calculator
