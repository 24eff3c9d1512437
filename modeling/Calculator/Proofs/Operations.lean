import Calculator.Proofs.Contracts

/-!
# What can be done with a stream

Whoever has a stream can take a head, a phrase or a whole expression, and can have an expression
evaluated, in any order and also after errors. Each of these does nothing to the stream but take
heads. So there is only one thing to show of an assertion about streams that is to hold whatever is
done: that taking a head preserves it.

## Main definitions

* `Operation`, `Output`: what can be done, and what is given then.
* `TokenStream.after`, `TokenStream.afterAll`: the stream that is left, by one operation and by one
  after the other.
* `TokenStream.output`, `TokenStream.observe`: the result of one operation, and what is seen by one
  after the other.

## Main results

* `TokenStream.after_of_take`, `TokenStream.afterAll_of_take`: what taking a head preserves is
  preserved by every operation, and by any number of them.
-/

namespace Calculator

/-- What can be done with a stream. -/
inductive Operation where
  /-- Takes the head if it is of a kind. -/
  | take (k : Token.Kind)
  /-- Takes a phrase of a category. -/
  | phrase (c : Category)
  /-- Takes an expression; strictly, if it has to be the last. -/
  | parse (strict : Bool)
  /-- Takes an expression and evaluates it. -/
  | evaluateNext
  deriving DecidableEq

/-- What an operation gives. -/
inductive Output where
  | token (t : Token)
  | tree (e : Expr)
  | value (n : Number)
  deriving DecidableEq

/-- What is seen by an operation: its result, and the head that the stream has afterwards. -/
structure Observation where
  result : Except Error Output
  head : Lexeme

namespace TokenStream

/-- The stream that an operation leaves, whether it succeeds or fails. -/
def after (s : TokenStream) : Operation → TokenStream
  | .take k => (s.take k).state
  | .phrase c => (s.phrase c).state
  | .parse strict => (s.parse strict).state
  | .evaluateNext => s.evaluateNext.state

/-- The stream that is left by operations one after the other. -/
def afterAll (s : TokenStream) (ops : List Operation) : TokenStream := ops.foldl after s

/-- The result of an operation. -/
def output (s : TokenStream) : Operation → Except Error Output
  | .take k => (s.take k).result.map .token
  | .phrase c => (s.phrase c).result.map .tree
  | .parse strict => (s.parse strict).result.map .tree
  | .evaluateNext => s.evaluateNext.result.map .value

/-- What is seen by operations one after the other. -/
def observe (s : TokenStream) : List Operation → List Observation
  | [] => []
  | op :: ops => ⟨s.output op, (s.after op).head⟩ :: (s.after op).observe ops

variable {P : TokenStream → Prop} {s : TokenStream}

/-- What taking a head preserves is preserved by every rule. -/
theorem state_phrase_of_take (h : ∀ s k, P s → P (s.take k).state) (c : Category) (hs : P s) :
    P (s.phrase c).state := by
  have hcontract : Contract (fun _ => P) fun _ _ => P :=
    { take := fun _ s hs _ => Outcome.meetsAfter_same_iff.mpr (h s _ hs)
      no_factor := fun _ _ hs _ _ => hs
      no_paren := fun _ _ hs _ _ => hs }
  exact Outcome.meetsAfter_same_iff.mp (phrase_meets hcontract c hs)

/-- **What taking a head preserves is preserved by every operation.** -/
theorem after_of_take (h : ∀ s k, P s → P (s.take k).state) (op : Operation) (hs : P s) :
    P (s.after op) := by
  cases op with
  | take k => exact h s k hs
  | phrase c => exact state_phrase_of_take h c hs
  | parse strict =>
    rw [after, state_parse]
    exact state_phrase_of_take h .expression hs
  | evaluateNext =>
    rw [after, state_evaluateNext]
    exact state_phrase_of_take h .expression hs

/-- What taking a head preserves holds whatever was done. -/
theorem afterAll_of_take (h : ∀ s k, P s → P (s.take k).state) (ops : List Operation)
    (hs : P s) : P (s.afterAll ops) := by
  induction ops generalizing s with
  | nil => exact hs
  | cons op ops ih => exact ih (after_of_take h op hs)

end TokenStream

end Calculator
