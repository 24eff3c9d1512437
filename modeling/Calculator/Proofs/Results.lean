import Calculator.Calculation

/-!
# Results without the record

A computation keeps a record of what happened, and an operation on a state leaves a state. The
lemmas here say what becomes of the result alone, or of the result and the state, when computations
follow each other.

## Main definitions

* `Outcome.Yields`: an operation succeeds with a value and leaves a state.
* `acceptance`: what is recorded about an expression that is accepted.

## Main results

* `Expr.result_evaluate_binary`: the value of an operation, by the values of its operands.
* `TokenStream.parse_cases`: what parsing makes of an expression.
* `TokenStream.state_calculate`, `TokenStream.result_calculate`: what a call leaves and gives.
* `parse_eq_bind`, `evaluate_eq_bind`: parsing and evaluating a text, one after the other.
-/

namespace Calculator

variable {ε ε' σ α β : Type}

/-! ### Success and failure -/

theorem ok_of_toOption {x : Except ε α} {a : α} (h : x.toOption = some a) : x = .ok a := by
  cases x with
  | ok b => exact congrArg _ (Option.some.inj h)
  | error e => cases h

theorem exists_ok_of_isSome {x : Except ε α} (h : x.toOption.isSome) : ∃ a, x = .ok a := by
  cases x with
  | ok a => exact ⟨a, rfl⟩
  | error e => cases h

/-- The error of a computation that failed. -/
def error? : Except ε α → Option ε
  | .ok _ => none
  | .error e => some e

theorem error_of_error? {x : Except ε α} {e : ε} (h : error? x = some e) : x = .error e := by
  cases x with
  | ok b => cases h
  | error d => exact congrArg _ (Option.some.inj h)

theorem bind_eq_ok_iff {x : Except ε α} {f : α → Except ε β} {b : β} :
    x.bind f = .ok b ↔ ∃ a, x = .ok a ∧ f a = .ok b := by
  cases x <;> simp [Except.bind]

theorem bind_eq_error_iff {x : Except ε α} {f : α → Except ε β} {e : ε} :
    x.bind f = .error e ↔ x = .error e ∨ ∃ a, x = .ok a ∧ f a = .error e := by
  cases x <;> simp [Except.bind]

theorem map_eq_error_iff {f : α → β} {x : Except ε α} {e : ε} :
    x.map f = .error e ↔ x = .error e := by
  cases x <;> simp [Except.map]

theorem mapError_eq_ok_iff {f : ε → ε'} {x : Except ε α} {a : α} :
    x.mapError f = .ok a ↔ x = .ok a := by
  cases x with
  | ok b => exact ⟨fun h => congrArg _ (Except.ok.inj h), fun h => congrArg _ (Except.ok.inj h)⟩
  | error e => exact ⟨nofun, nofun⟩

/-! ### Computations -/

namespace Logged

theorem result_bind (x : Logged ε α) (f : α → Logged ε β) :
    (x >>= f).result = x.result.bind fun a => (f a).result := by
  change (Logged.bind x f).result = _
  rw [Logged.bind]
  cases x.result <;> rfl

theorem result_mapError (f : ε → ε') (x : Logged ε α) :
    (x.mapError f).result = x.result.mapError f := rfl

/-- What a second computation records comes after what the first one does. -/
theorem log_bind_of_ok {x : Logged ε α} {a : α} (h : x.result = .ok a) (f : α → Logged ε β) :
    (x >>= f).log = x.log ++ (f a).log := by
  change (Logged.bind x f).log = _
  rw [Logged.bind, h]

/-- After a failure nothing is recorded any more. -/
theorem log_bind_of_error {x : Logged ε α} {e : ε} (h : x.result = .error e) (f : α → Logged ε β) :
    (x >>= f).log = x.log := by
  change (Logged.bind x f).log = _
  rw [Logged.bind, h]

end Logged

/-! ### Operations on a state -/

namespace Outcome

theorem result_andThen (x : Outcome ε σ α) (f : α → σ → Outcome ε σ β) :
    (x.andThen f).result = x.result.bind fun a => (f a x.state).result := by
  rw [Outcome.andThen]
  cases x.result <;> rfl

/-- An operation succeeds with the value `a` and leaves the state `s`. -/
def Yields (o : Outcome ε σ α) (a : α) (s : σ) : Prop := o.result = .ok a ∧ o.state = s

@[simp] theorem ok_yields_iff {a b : α} {s t : σ} :
    (Outcome.ok a s : Outcome ε σ α).Yields b t ↔ a = b ∧ s = t := by
  simp [Yields, Outcome.ok, Logged.ok]

@[simp] theorem not_error_yields {e : ε} {a : α} {s t : σ} :
    ¬ (Outcome.error e s : Outcome ε σ α).Yields a t := by
  simp [Yields, Outcome.error, Logged.error]

/-- One operation after another succeeds when the first does, and then the second from there. -/
theorem andThen_yields_iff {x : Outcome ε σ α} {f : α → σ → Outcome ε σ β} {b : β} {r : σ} :
    (x.andThen f).Yields b r ↔ ∃ a q, x.Yields a q ∧ (f a q).Yields b r := by
  constructor
  · rintro ⟨hresult, hstate⟩
    cases hx : x.result with
    | ok a =>
      rw [andThen_of_ok hx] at hresult hstate
      exact ⟨a, x.state, ⟨hx, rfl⟩, hresult, hstate⟩
    | error e =>
      rw [andThen_of_error hx] at hresult
      cases hresult
  · rintro ⟨a, q, ⟨hx, rfl⟩, hresult, hstate⟩
    rw [Yields, andThen_of_ok hx]
    exact ⟨hresult, hstate⟩

/-- A computation that needs no state leaves it as it is. -/
theorem state_andCompute (x : Outcome ε σ α) (f : α → Logged ε β) :
    (x.andCompute f).state = x.state := by
  rw [andCompute]
  cases h : x.result with
  | ok a => rw [andThen_of_ok h]
  | error e => rw [andThen_of_error h]

end Outcome

/-! ### Values -/

theorem Operator.result_applyLogged (op : Operator) (left right : Number) (p : Nat) :
    (op.applyLogged left right p).result = op.apply left right p := by
  rw [Operator.applyLogged]
  cases op.apply left right p <;> rfl

/-- The left operand decides before the right one, and both before the operator. -/
theorem Expr.result_evaluate_binary (op : Operator) (left right : Expr) (p : Nat) :
    (Expr.binary op left right p).evaluate.result =
      left.evaluate.result.bind fun a =>
        right.evaluate.result.bind fun b => op.apply a b p := by
  simp only [Expr.evaluate, Logged.result_bind, Operator.result_applyLogged]

/-! ### Streams -/

/-- What is recorded about an expression that is accepted with the lexeme `l` after it. -/
def acceptance (strict : Bool) (e : Expr) (l : Lexeme) : List Event :=
  (if l.token = .endOfInput then [] else [.ignoredTrailing l]) ++
    [if strict then .parsedComplete e else .parsed e]

namespace TokenStream

/-- What parsing makes of an expression. It cannot be taken; or it is accepted, because nothing
follows it or because that does not matter; or it is refused, which is not recorded. The stream is
left as taking the expression leaves it. -/
theorem parse_cases (s : TokenStream) (strict : Bool) :
    (∃ err, s.expression.result = .error err ∧
      s.parse strict = ⟨⟨.error err, s.expression.log⟩, s.expression.state⟩) ∨
    (∃ e, s.expression.result = .ok e ∧
      (s.expression.state.head.token = .endOfInput ∨ strict = false) ∧
      s.parse strict = ⟨⟨.ok e, s.expression.log ++ acceptance strict e s.expression.state.head⟩,
        s.expression.state⟩) ∨
    (∃ e, s.expression.result = .ok e ∧
      s.parse strict = ⟨⟨.error (.syntactic (.trailingInput s.expression.state.head.token.kind
        s.expression.state.head.position)), s.expression.log⟩, s.expression.state⟩) := by
  rw [TokenStream.parse]
  cases hresult : s.expression.result with
  | error err => exact .inl ⟨err, rfl, Outcome.andThen_of_error hresult⟩
  | ok e =>
    refine .inr ?_
    rw [Outcome.andThen_of_ok hresult]
    by_cases hend : s.expression.state.head.token = .endOfInput
    · refine .inl ⟨e, rfl, .inl hend, ?_⟩
      cases strict <;> simp [hend, acceptance]
    · cases strict with
      | false =>
        refine .inl ⟨e, rfl, .inr rfl, ?_⟩
        split <;> simp_all [acceptance]
      | true =>
        refine .inr ⟨e, rfl, ?_⟩
        split <;> simp_all [Outcome.error, Logged.error]

/-- What follows an expression is left in the stream, whether it is an error or not. -/
theorem state_parse (s : TokenStream) (strict : Bool) :
    (s.parse strict).state = s.expression.state := by
  rcases s.parse_cases strict with ⟨_, -, h⟩ | ⟨_, -, -, h⟩ | ⟨_, -, h⟩ <;> rw [h]

/-- An expression is evaluated when it has been taken, so that this changes nothing. -/
theorem state_evaluateNext (s : TokenStream) : s.evaluateNext.state = s.expression.state := by
  rw [evaluateNext, Outcome.state_andCompute, state_parse]

/-- The value of an expression that is taken is that of its tree. -/
theorem result_evaluateNext (s : TokenStream) :
    s.evaluateNext.result = (s.parse false).result.bind fun e =>
      e.evaluate.result.mapError .runtime := by
  rw [evaluateNext, Outcome.andCompute, Outcome.result_andThen]
  rfl

theorem state_calculate (s : TokenStream) (strict : Bool) :
    (s.calculate strict).state = s.expression.state := by
  rw [calculate, Outcome.state_andCompute, state_parse]

/-- Recording the value does not change it. -/
theorem result_calculate (s : TokenStream) (strict : Bool) :
    (s.calculate strict).result = (s.parse strict).result.bind fun e =>
      e.evaluate.result.mapError .runtime := by
  rw [calculate, Outcome.andCompute, Outcome.result_andThen]
  refine congrArg _ (funext fun e => ?_)
  simp only [Logged.result_bind, Logged.result_mapError]
  cases e.evaluate.result <;> rfl

end TokenStream

/-! ### Texts -/

/-- A text is parsed by parsing the stream of its tokens, if there is one. -/
theorem parse_eq_bind (text : String) (strict : Bool) :
    parse text strict = ((TokenStream.ofString text).result.mapError .lexical).bind fun s =>
      (s.parse strict).result := by
  rw [parse, parseLogged, Logged.result_bind, Logged.result_mapError]

theorem parse_of_stream {text : String} {s : TokenStream}
    (hs : (TokenStream.ofString text).result = .ok s) (strict : Bool) :
    parse text strict = (s.parse strict).result := by
  rw [parse_eq_bind, hs]
  rfl

/-- A text whose first word is misspelled is not parsed. -/
theorem parse_of_no_stream {text : String} {e : LexError}
    (hs : (TokenStream.ofString text).result = .error e) (strict : Bool) :
    parse text strict = .error (.lexical e) := by
  rw [parse_eq_bind, hs]
  rfl

/-- A text is evaluated by parsing it and then evaluating its tree. -/
theorem evaluate_eq_bind (text : String) (strict : Bool) :
    evaluate text strict = (parse text strict).bind fun e =>
      e.evaluate.result.mapError .runtime := by
  rw [evaluate, evaluateLogged, Logged.result_bind, Logged.result_mapError, parse_eq_bind]
  simp only [TokenStream.result_calculate]
  cases (TokenStream.ofString text).result <;> rfl

/-- A text that is parsed has a stream of tokens, which is parsed. -/
theorem exists_stream_of_parse {text : String} {strict : Bool} {e : Expr}
    (h : parse text strict = .ok e) :
    ∃ s, (TokenStream.ofString text).result = .ok s ∧ (s.parse strict).result = .ok e := by
  rw [parse_eq_bind, bind_eq_ok_iff] at h
  obtain ⟨s, hs, he⟩ := h
  exact ⟨s, mapError_eq_ok_iff.mp hs, he⟩

/-- A text that has a value is parsed to a tree that has this value. -/
theorem exists_tree_of_evaluate {text : String} {strict : Bool} {n : Number}
    (h : evaluate text strict = .ok n) :
    ∃ e, parse text strict = .ok e ∧ e.evaluate.result = .ok n := by
  rw [evaluate_eq_bind, bind_eq_ok_iff] at h
  obtain ⟨e, he, hn⟩ := h
  exact ⟨e, he, mapError_eq_ok_iff.mp hn⟩

end Calculator
