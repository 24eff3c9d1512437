import Calculator.Grammar
import Calculator.TokenStream.Progress

/-!
# The grammar rules

Each category has a rule that takes a phrase of it from a stream and gives the tree. The head of
the stream decides what to do. A chain of operators of one category is taken from left to right,
and the tree that there is so far becomes the left operand of the next operation.

## Main definitions

* `TokenStream.phrase`: the rule of a category; `TokenStream.factor`, `TokenStream.term` and
  `TokenStream.expression` are the three of them.
* `TokenStream.chain`: takes the rest of a chain of operators.

## Main results

* `TokenStream.remaining_phrase_lt`: a phrase takes at least one token.
* `TokenStream.phrase_factor`, `TokenStream.phrase_term`, `TokenStream.phrase_expression` and
  `TokenStream.chain_eq`: the rules, without the bounds that show that they come to an end.
-/

namespace Calculator

namespace TokenStream

theorem kind_operator_ne (op : Operator) : op.token.kind ≠ .endOfInput := by
  cases op <;> decide

mutual

/-- The rule of a category, with the bound on what it leaves. In one place a rule only calls rules
of lower categories, and there are three categories; to call any other it has to take a token. -/
def boundedPhrase (c : Category) (s : TokenStream) : Consuming s.remaining Expr :=
  match c with
  | .factor =>
    match s.head.token with
    | .number value =>
      (s.boundedTake .number (by decide)).andThen fun _ q _ =>
        .ok (.literal value s.head.position) q
    | .leftParen =>
      (s.boundedTake .leftParen (by decide)).andThen fun _ q _ =>
        ((boundedPhrase .expression q).andThen fun e r _ =>
          ((r.boundedTake .rightParen (by decide)).andThen fun _ t _ =>
            .ok e t).toBounded).toBounded
    | token => .error (.syntactic (.expectedFactor token.kind s.head.position)) s
  | .term => (boundedPhrase .factor s).andThen fun left q _ => boundedChain .term left q
  | .expression => (boundedPhrase .term s).andThen fun left q _ => boundedChain .expression left q
termination_by 3 * s.remaining + c.rank
decreasing_by all_goals simp only [Category.rank]; omega

/-- The rest of a chain of operators of a category, with the bound on what it leaves. -/
def boundedChain (c : Category) (left : Expr) (s : TokenStream) : Bounded s.remaining Expr :=
  match s.head.token.operator? with
  | some op =>
    if op.category = c then
      ((s.boundedTake op.token.kind (kind_operator_ne op)).andThen fun _ q _ =>
        ((boundedPhrase op.operand q).andThen fun right r _ =>
          boundedChain c (.binary op left right s.head.position) r).toBounded).toBounded
    else .ok left s
  | none => .ok left s
termination_by 3 * s.remaining
decreasing_by
  · cases op <;> simp only [Operator.operand, Category.rank] <;> omega
  · omega

end

/-- Takes a phrase of a category and gives its tree. -/
def phrase (c : Category) (s : TokenStream) : Outcome Error TokenStream Expr :=
  (boundedPhrase c s).outcome

/-- Takes operators of a category, each with its right operand, as long as there are any; `left` is
the tree of what stands before them. -/
def chain (c : Category) (left : Expr) (s : TokenStream) : Outcome Error TokenStream Expr :=
  (boundedChain c left s).outcome

@[inherit_doc phrase]
abbrev factor (s : TokenStream) : Outcome Error TokenStream Expr := s.phrase .factor

@[inherit_doc phrase]
abbrev term (s : TokenStream) : Outcome Error TokenStream Expr := s.phrase .term

@[inherit_doc phrase]
abbrev expression (s : TokenStream) : Outcome Error TokenStream Expr := s.phrase .expression

/-! ### What the rules leave -/

theorem remaining_phrase_le (c : Category) (s : TokenStream) :
    (s.phrase c).state.remaining ≤ s.remaining :=
  (boundedPhrase c s).le

theorem remaining_phrase_lt {c : Category} {s : TokenStream} {e : Expr}
    (h : (s.phrase c).result = .ok e) : (s.phrase c).state.remaining < s.remaining :=
  (boundedPhrase c s).lt e h

theorem remaining_chain_le (c : Category) (left : Expr) (s : TokenStream) :
    (chain c left s).state.remaining ≤ s.remaining :=
  (boundedChain c left s).le

/-! ### The rules as equations -/

/-- A factor is a literal, or an expression in parentheses. -/
theorem phrase_factor (s : TokenStream) :
    s.phrase .factor =
      match s.head.token with
      | .number value => (s.take .number).andThen fun _ q => .ok (.literal value s.head.position) q
      | .leftParen =>
        (s.take .leftParen).andThen fun _ q =>
          (q.phrase .expression).andThen fun e r =>
            (r.take .rightParen).andThen fun _ t => .ok e t
      | token => .error (.syntactic (.expectedFactor token.kind s.head.position)) s := by
  rw [phrase, boundedPhrase]
  split
  · exact Consuming.outcome_andThen _ _ _ fun _ _ _ => rfl
  · refine Consuming.outcome_andThen _ _ _ fun _ q _ => ?_
    refine Consuming.outcome_andThen _ _ _ fun e r _ => ?_
    exact Consuming.outcome_andThen _ _ _ fun _ _ _ => rfl
  · rfl

/-- A term is a factor and a chain of multiplications and divisions. -/
theorem phrase_term (s : TokenStream) :
    s.phrase .term = (s.phrase .factor).andThen (chain .term) := by
  rw [phrase, boundedPhrase]
  exact Consuming.outcome_andThen _ _ _ fun _ _ _ => rfl

/-- An expression is a term and a chain of additions and subtractions. -/
theorem phrase_expression (s : TokenStream) :
    s.phrase .expression = (s.phrase .term).andThen (chain .expression) := by
  rw [phrase, boundedPhrase]
  exact Consuming.outcome_andThen _ _ _ fun _ _ _ => rfl

/-- A chain goes on as long as the head is an operator of its category. -/
theorem chain_eq (c : Category) (left : Expr) (s : TokenStream) :
    chain c left s =
      match s.head.token.operator? with
      | some op =>
        if op.category = c then
          (s.take op.token.kind).andThen fun _ q =>
            (q.phrase op.operand).andThen fun right r =>
              chain c (.binary op left right s.head.position) r
        else .ok left s
      | none => .ok left s := by
  rw [chain, boundedChain]
  split
  · split
    · refine Consuming.outcome_andThen _ _ _ fun _ q _ => ?_
      exact Consuming.outcome_andThen _ _ _ fun _ _ _ => rfl
    · rfl
  · rfl

end TokenStream

end Calculator
