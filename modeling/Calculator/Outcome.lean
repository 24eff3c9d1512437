import Calculator.Event

/-!
# Computations that may fail and keep a record

A computation gives a value or an error, and in both cases the events that happened on the way. An
operation on a state gives, in both cases again, also the state that it leaves: reading goes on
after an error from where the error left it.

## Main definitions

* `Calculator.Logged`: a result and the record of events; a monad in which the first error ends
  the computation.
* `Calculator.Outcome`: the same with the state that an operation leaves.
* `Outcome.andThen`: one operation, and on success another from the state it left.
-/

namespace Calculator

/-- The result of a computation, and what happened during it. -/
structure Logged (ε α : Type) where
  result : Except ε α
  log : List Event

namespace Logged

variable {ε ε' α β : Type}

/-- Success with nothing to record. -/
protected def ok (a : α) : Logged ε α := ⟨.ok a, []⟩

/-- Failure with nothing to record. -/
protected def error (e : ε) : Logged ε α := ⟨.error e, []⟩

/-- One computation, and on success another that may use its value. -/
protected def bind (x : Logged ε α) (f : α → Logged ε β) : Logged ε β :=
  match x.result with
  | .ok a =>
    let y := f a
    ⟨y.result, x.log ++ y.log⟩
  | .error e => ⟨.error e, x.log⟩

instance : Monad (Logged ε) where
  pure := Logged.ok
  bind := Logged.bind

/-- Records an event. -/
def tell (e : Event) : Logged ε Unit := ⟨.ok (), [e]⟩

/-- Restates an error for a wider class of errors. -/
def mapError (f : ε → ε') (x : Logged ε α) : Logged ε' α := ⟨x.result.mapError f, x.log⟩

end Logged

/-- What an operation on a state gives: a result, a record, and the state left behind. -/
structure Outcome (ε σ α : Type) extends Logged ε α where
  state : σ

namespace Outcome

variable {ε σ α β : Type}

/-- Success with nothing to record. -/
protected def ok (a : α) (s : σ) : Outcome ε σ α := ⟨.ok a, s⟩

/-- Failure with nothing to record. -/
protected def error (e : ε) (s : σ) : Outcome ε σ α := ⟨.error e, s⟩

/-- An operation, and on success another from the state that it left. -/
def andThen (x : Outcome ε σ α) (f : α → σ → Outcome ε σ β) : Outcome ε σ β :=
  match x.result with
  | .ok a =>
    let y := f a x.state
    ⟨⟨y.result, x.log ++ y.log⟩, y.state⟩
  | .error e => ⟨⟨.error e, x.log⟩, x.state⟩

/-- An operation, and on success a computation that needs no state. -/
def andCompute (x : Outcome ε σ α) (f : α → Logged ε β) : Outcome ε σ β :=
  x.andThen fun a s => ⟨f a, s⟩

theorem andThen_of_ok {x : Outcome ε σ α} {f : α → σ → Outcome ε σ β} {a : α}
    (h : x.result = .ok a) :
    x.andThen f = ⟨⟨(f a x.state).result, x.log ++ (f a x.state).log⟩, (f a x.state).state⟩ := by
  simp [andThen, h]

theorem andThen_of_error {x : Outcome ε σ α} {f : α → σ → Outcome ε σ β} {e : ε}
    (h : x.result = .error e) : x.andThen f = ⟨⟨.error e, x.log⟩, x.state⟩ := by
  simp [andThen, h]

end Outcome

end Calculator
