import Calculator.Proofs.Machine

/-!
# The parser as a pushdown machine

While the rules of the grammar are at work, what they have taken so far is spread over the calls
that are under way: the left operands of operators whose right operand is still being read, and
one group of them for each open parenthesis. Here this is a state of its own, a stack, and the
rules become a machine that looks at one lexeme after the other.

On one level of parentheses at most two operators wait for their right operands, since an operator
that binds as tightly as the one before it, or less, completes that one first: a sum or difference,
and a product or quotient inside its right operand.

The machine does everything that the rules do, down to the errors and the trees, and it is flat:
what it does next depends on the state and on one lexeme. A run is a fold over the readings, so
that properties of whole runs are proved by induction on a list and not along the rules. The rules
are needed in one place only, `advance_phrase`.

## Main definitions

* `Pending`, `Frame`, `Pushdown`: an operator that waits, a level of parentheses, a state.
* `Pushdown.move`: what the machine does at a lexeme.

## Main results

* `Pushdown.advance_phrase`: on the readings of a stream the machine does what a rule does there.
* `Pushdown.advance_readings`: on the readings of a text the machine stops with what parsing the
  text gives.
-/

namespace Calculator

/-- An operator and its left operand, waiting for the right one. -/
structure Pending where
  left : Expr
  op : Operator
  position : Nat

/-- Gives an operator that may be waiting its right operand. -/
def Pending.complete : Option Pending → Expr → Expr
  | none, e => e
  | some w, e => .binary w.op w.left e w.position

/-- The operators that wait on one level of parentheses: of the category of expressions, and inside
its right operand of the category of terms. -/
structure Frame where
  sum : Option Pending
  product : Option Pending

/-- A level on which nothing waits. -/
def Frame.empty : Frame := ⟨none, none⟩

/-- The frame in which the right operand of an operator is read, when its left operand ends with
the term `e`. An operator of the category of terms leaves a waiting sum alone, and any other
completes it. -/
def Frame.after (sum : Option Pending) (e : Expr) (op : Operator) (p : Nat) : Frame :=
  if op.category = .term then ⟨sum, some ⟨e, op, p⟩⟩
  else ⟨some ⟨Pending.complete sum e, op, p⟩, none⟩

/-- A state of the machine; `outer` are the frames of the parentheses around the innermost level. -/
inductive Pushdown where
  /-- An operand has to come. -/
  | expecting (frame : Frame) (outer : List Frame)
  /-- A term has been read, to which factors may still be added. -/
  | seen (term : Expr) (sum : Option Pending) (outer : List Frame)

namespace Pushdown

/-- Nothing has been read. -/
def start : Pushdown := .expecting .empty []

/-- A factor has been read in a frame. -/
def afterFactor (e : Expr) (frame : Frame) (outer : List Frame) : Pushdown :=
  .seen (Pending.complete frame.product e) frame.sum outer

/-- What becomes of an expression outside all parentheses at a lexeme that cannot belong to it. -/
def ending (strict : Bool) (e : Expr) (l : Lexeme) : Except Error Expr :=
  if l.token = .endOfInput ∨ strict = false then .ok e
  else .error (.syntactic (.trailingInput l.token.kind l.position))

theorem ending_eq_ok {strict : Bool} {l : Lexeme} (h : l.token = .endOfInput ∨ strict = false)
    (e : Expr) : ending strict e l = .ok e := if_pos h

theorem ending_eq_error {l : Lexeme} (h : l.token ≠ .endOfInput) (e : Expr) :
    ending true e l = .error (.syntactic (.trailingInput l.token.kind l.position)) :=
  if_neg (by simpa using h)

theorem eq_of_ending_eq_ok {strict : Bool} {d e : Expr} {l : Lexeme}
    (h : ending strict d l = .ok e) : d = e := by
  rw [ending] at h
  split at h
  · exact Except.ok.inj h
  · cases h

/-- Strictly, an expression is accepted at the end only. -/
theorem token_eq_of_ending {d e : Expr} {l : Lexeme} (h : ending true d l = .ok e) :
    l.token = .endOfInput := by
  rw [ending] at h
  split at h
  · next hend => simpa using hend
  · cases h

/-- What the machine does after an expression, at a lexeme that cannot belong to it. -/
def finish (strict : Bool) (e : Expr) (l : Lexeme) : List Frame → Move Pushdown Expr
  | [] => .stop (ending strict e l)
  | frame :: outer =>
    if l.token = .rightParen then .go (afterFactor e frame outer)
    else .stop (.error (.syntactic (.unexpectedToken .rightParen l.token.kind l.position)))

/-- What the machine does at a lexeme. -/
def move (strict : Bool) : Pushdown → Lexeme → Move Pushdown Expr
  | .expecting frame outer, l =>
    match l.token with
    | .number value => .go (afterFactor (.literal value l.position) frame outer)
    | .leftParen => .go (.expecting .empty (frame :: outer))
    | token => .stop (.error (.syntactic (.expectedFactor token.kind l.position)))
  | .seen e sum outer, l =>
    match l.token.operator? with
    | some op => .go (.expecting (.after sum e op l.position) outer)
    | none => finish strict (Pending.complete sum e) l outer

/-! ### The moves one by one -/

variable {strict : Bool} {frame : Frame} {outer : List Frame} {sum : Option Pending} {e : Expr}
  {l : Lexeme}

theorem move_number {value : Integer} (h : l.token = .number value) :
    move strict (.expecting frame outer) l =
      .go (afterFactor (.literal value l.position) frame outer) := by
  rw [move, h]

theorem move_leftParen (h : l.token = .leftParen) :
    move strict (.expecting frame outer) l = .go (.expecting .empty (frame :: outer)) := by
  rw [move, h]

theorem move_expecting_other (hnumber : ∀ value, l.token ≠ .number value)
    (hparen : l.token ≠ .leftParen) :
    move strict (.expecting frame outer) l =
      .stop (.error (.syntactic (.expectedFactor l.token.kind l.position))) := by
  rw [move]
  split
  · next value h => exact absurd h (hnumber value)
  · next h => exact absurd h hparen
  · rfl

theorem move_operator {op : Operator} (h : l.token = op.token) :
    move strict (.seen e sum outer) l = .go (.expecting (.after sum e op l.position) outer) := by
  rw [move, Token.operator?_eq_some_iff.mpr h]

theorem move_rightParen (h : l.token = .rightParen) :
    move strict (.seen e sum (frame :: outer)) l =
      .go (afterFactor (Pending.complete sum e) frame outer) := by
  rw [move, h]
  exact if_pos h

theorem move_inside_other (hop : l.token.operator? = none) (hparen : l.token ≠ .rightParen) :
    move strict (.seen e sum (frame :: outer)) l =
      .stop (.error (.syntactic (.unexpectedToken .rightParen l.token.kind l.position))) := by
  rw [move, hop]
  exact if_neg hparen

theorem move_outside (hop : l.token.operator? = none) :
    move strict (.seen e sum []) l = .stop (ending strict (Pending.complete sum e) l) := by
  rw [move, hop]
  rfl

/-- A waiting sum may be completed before any lexeme but an operator that binds more tightly. -/
theorem move_complete (h : Follows .term l.token) :
    move strict (.seen e sum outer) l =
      move strict (.seen (Pending.complete sum e) none outer) l := by
  rw [move, move]
  cases hop : l.token.operator? with
  | none => rfl
  | some op =>
    have hcategory : op.category ≠ .term := fun hc => absurd (h op hop) (by rw [hc]; decide)
    simp only [Frame.after, if_neg hcategory, Pending.complete]

/-! ### The rules -/

/-- The frames in which a phrase of a category is read. -/
def Fits : Category → Frame → Prop
  | .factor, _ => True
  | .term, frame => frame.product = none
  | .expression, frame => frame = .empty

theorem fits_after (sum : Option Pending) (e : Expr) (op : Operator) (p : Nat) :
    Fits op.operand (.after sum e op p) := by
  cases op <;> trivial

/-- Where a phrase may be read, its first operand may be read. -/
theorem Fits.operand {op : Operator} (h : Fits op.category frame) : Fits op.operand frame := by
  cases op with
  | add | sub =>
    obtain rfl : frame = .empty := h
    rfl
  | mul | div => trivial

/-- The first operand of a phrase is no right operand of a product that waits. -/
theorem Fits.afterFactor_eq {op : Operator} (h : Fits op.category frame) (e : Expr) :
    afterFactor e frame outer = .seen e frame.sum outer := by
  have hproduct : frame.product = none := by
    cases op with
    | add | sub =>
      obtain rfl : frame = .empty := h
      rfl
    | mul | div => exact h
  rw [afterFactor, hproduct, Pending.complete]

theorem Fits.sum_eq_none (h : Fits .expression frame) : frame.sum = none := by
  obtain rfl : frame = .empty := h
  rfl

/-- On the readings of `s` the machine does what the rule of a category does there. -/
def PhraseAgrees (strict : Bool) (c : Category) (s : TokenStream) : Prop :=
  ∀ frame outer, Fits c frame →
    advance (move strict) (.expecting frame outer) s.readings =
      (s.phrase c).resume fun e r => advance (move strict) (afterFactor e frame outer) r.readings

/-- On the readings of `s` the machine does what taking a chain does there. Only a chain of terms
may stand in the right operand of a sum that waits. -/
def ChainAgrees (strict : Bool) (c : Category) (s : TokenStream) : Prop :=
  ∀ left sum outer, (c = .expression → sum = none) →
    advance (move strict) (.seen left sum outer) s.readings =
      (TokenStream.chain c left s).resume fun e r =>
        advance (move strict) (.seen e sum outer) r.readings

theorem advance_complete {s : TokenStream} (h : Follows .term s.head.token) :
    advance (move strict) (.seen e sum outer) s.readings =
      advance (move strict) (.seen (Pending.complete sum e) none outer) s.readings := by
  rw [TokenStream.readings, advance, advance, Move.atReading, Move.atReading, move_complete h]

/-- At the end of an expression inside parentheses the machine does what taking the closing
parenthesis does. -/
theorem advance_rightParen {s : TokenStream} (h : Follows .expression s.head.token) :
    advance (move strict) (.seen e none (frame :: outer)) s.readings =
      (s.take .rightParen).resume fun _ q =>
        advance (move strict) (afterFactor e frame outer) q.readings := by
  by_cases hparen : s.head.token = .rightParen
  · exact advance_take (by decide) (by rw [hparen]; rfl) (move_rightParen hparen)
  · have hop := follows_expression_iff.mp h
    rw [TokenStream.take_of_ne (mt Token.kind_eq_rightParen_iff.mp hparen), Outcome.resume_error]
    exact advance_readings_of_stop (move_inside_other hop hparen)

theorem factor_agrees {s : TokenStream}
    (ih : ∀ q : TokenStream, q.remaining < s.remaining → PhraseAgrees strict .expression q) :
    PhraseAgrees strict .factor s := by
  intro frame outer _
  rcases TokenStream.factor_cases s.head.token with ⟨value, hhead⟩ | hhead | ⟨hnumber, hparen⟩
  · rw [TokenStream.phrase_factor_of_number hhead, Outcome.resume_andThen]
    exact advance_take (by decide) (by rw [hhead]; rfl) (move_number hhead)
  · rw [TokenStream.phrase_factor_of_leftParen hhead, Outcome.resume_andThen,
      advance_take (k := .leftParen) (by decide) (by rw [hhead]; rfl) (move_leftParen hhead)]
    refine Outcome.resume_congr fun t q htake => ?_
    rw [Outcome.resume_andThen, ih q (TokenStream.remaining_lt_of_take (by decide) htake) _ _ rfl]
    refine Outcome.resume_congr fun e r hinner => ?_
    rw [Outcome.resume_andThen]
    exact advance_rightParen (TokenStream.follows_of_phrase hinner)
  · rw [TokenStream.phrase_factor_of_other hnumber hparen, Outcome.resume_error]
    exact advance_readings_of_stop (move_expecting_other hnumber hparen)

/-- After the right operand of an operator the operation has been read, once the lexeme that comes
next is known not to belong to the operand. -/
theorem advance_operation {op : Operator} {left right : Expr} {p : Nat} {s : TokenStream}
    (hsum : op.category = .expression → sum = none) (h : Follows op.operand s.head.token) :
    advance (move strict) (afterFactor right (.after sum left op p) outer) s.readings =
      advance (move strict) (.seen (.binary op left right p) sum outer) s.readings := by
  cases op
  case mul | div => rfl
  all_goals
    obtain rfl := hsum rfl
    exact advance_complete h

theorem chain_agrees {c : Category} {s : TokenStream}
    (ihphrase : ∀ d (q : TokenStream), q.remaining < s.remaining → PhraseAgrees strict d q)
    (ihchain : ∀ q : TokenStream, q.remaining < s.remaining → ChainAgrees strict c q) :
    ChainAgrees strict c s := by
  intro left sum outer hsum
  rcases TokenStream.chain_cases c s.head.token with ⟨op, rfl, hop⟩ | hno
  · have hne := TokenStream.kind_operator_ne op
    rw [TokenStream.chain_of_operator hop, Outcome.resume_andThen,
      advance_take hne (by rw [hop]) (move_operator hop)]
    refine Outcome.resume_congr fun t q htake => ?_
    have hq := TokenStream.remaining_lt_of_take hne htake
    rw [Outcome.resume_andThen, ihphrase op.operand q hq _ _ (fits_after sum left op _)]
    refine Outcome.resume_congr fun right r hright => ?_
    rw [advance_operation hsum (TokenStream.follows_of_phrase hright)]
    exact ihchain r (Nat.lt_trans (TokenStream.remaining_lt_of_phrase hright) hq) _ _ _ hsum
  · rw [TokenStream.chain_of_no_operator hno, Outcome.resume_ok]

/-- **On the readings of a stream the machine does what a rule does there.** -/
theorem advance_phrase (strict : Bool) (c : Category) (s : TokenStream) :
    PhraseAgrees strict c s := by
  refine (TokenStream.phrase_induction (P := PhraseAgrees strict) (Q := ChainAgrees strict)
    (fun s => factor_agrees) ?_ fun c s => chain_agrees).1 c s
  intro op s ihoperand ihchain frame outer hfits
  rw [TokenStream.phrase_category, Outcome.resume_andThen, ihoperand frame outer hfits.operand]
  simp only [hfits.afterFactor_eq]
  refine Outcome.resume_congr fun left q hleft => ?_
  exact ihchain q (TokenStream.remaining_lt_of_phrase hleft) left frame.sum outer fun hc =>
    Fits.sum_eq_none (hc ▸ hfits)

/-! ### Whole texts -/

/-- What parsing makes of an expression and of the lexeme after it. -/
theorem result_parse (strict : Bool) (s : TokenStream) :
    (s.parse strict).result = s.expression.result.bind fun e =>
      ending strict e s.expression.state.head := by
  rw [TokenStream.parse]
  cases h : s.expression.result with
  | error err => rw [Outcome.andThen_of_error h]; rfl
  | ok e =>
    rw [Outcome.andThen_of_ok h]
    simp only [Except.bind, ending]
    split <;> simp_all [Outcome.error, Logged.error]

/-- **On the readings of a text the machine stops with what parsing the text gives.** -/
theorem advance_readings (text : String) (strict : Bool) :
    advance (move strict) start (readings text) = .stop (parse text strict) := by
  cases hs : (TokenStream.ofString text).result with
  | error err =>
    have hread : readings text = _ := TokenStream.readings_of_ofCursor_error hs
    rw [hread, parse_of_no_stream hs]
    rfl
  | ok s =>
    have hread : s.readings = readings text := TokenStream.readings_ofCursor hs
    rw [← hread, start, advance_phrase strict .expression s .empty [] rfl, parse_of_stream hs,
      result_parse, Outcome.resume]
    cases h : s.expression.result with
    | error err => rfl
    | ok e =>
      have hfollows := TokenStream.follows_of_phrase ⟨h, rfl⟩
      exact advance_readings_of_stop (move_outside (follows_expression_iff.mp hfollows))

end Pushdown

end Calculator
