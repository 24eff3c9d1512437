import Calculator.TokenStream.Basic

/-!
# Operations that take tokens

The grammar rules call each other, and what stops them is that tokens are taken in between. That
is carried by the type of what a rule gives: an outcome that leaves at most so many tokens to take,
or fewer than that when it succeeds.

## Main definitions

* `TokenStream.Bounded n`: outcomes that leave at most `n` remaining tokens.
* `TokenStream.Consuming n`: of these, the ones that leave fewer than `n` on success.
* `Consuming.andThen`: after a success the next operation starts with fewer than `n`.
-/

namespace Calculator

namespace TokenStream

variable {α β : Type} {n : Nat}

/-- An outcome that leaves at most `n` tokens to take. -/
structure Bounded (n : Nat) (α : Type) where
  outcome : Outcome Error TokenStream α
  le : outcome.state.remaining ≤ n

/-- An outcome that leaves at most `n` tokens to take, and fewer on success. -/
structure Consuming (n : Nat) (α : Type) extends Bounded n α where
  lt : ∀ a, outcome.result = .ok a → outcome.state.remaining < n

/-- Success without taking anything. -/
def Bounded.ok (a : α) (s : TokenStream) : Bounded s.remaining α := ⟨.ok a s, Nat.le_refl _⟩

/-- Failure without taking anything. -/
def Consuming.error (e : Error) (s : TokenStream) : Consuming s.remaining α :=
  ⟨⟨.error e s, Nat.le_refl _⟩, fun _ h => nomatch h⟩

/-- Takes a token of a given kind other than the end of the input. -/
def boundedTake (s : TokenStream) (k : Token.Kind) (hk : k ≠ .endOfInput) :
    Consuming s.remaining Token :=
  ⟨⟨s.take k, remaining_take_le hk⟩, fun _ h => remaining_take_lt hk h⟩

/-- An operation that takes a token on success, and then another, which may count on that. -/
def Consuming.andThen (x : Consuming n α)
    (f : α → (s : TokenStream) → s.remaining < n → Bounded s.remaining β) : Consuming n β :=
  match h : x.outcome.result with
  | .ok a =>
    let y := f a x.outcome.state (x.lt a h)
    { outcome := ⟨⟨y.outcome.result, x.outcome.log ++ y.outcome.log⟩, y.outcome.state⟩
      le := Nat.le_of_lt (Nat.lt_of_le_of_lt y.le (x.lt a h))
      lt := fun _ _ => Nat.lt_of_le_of_lt y.le (x.lt a h) }
  | .error e =>
    { outcome := ⟨⟨.error e, x.outcome.log⟩, x.outcome.state⟩
      le := x.le
      lt := fun _ h => nomatch h }

/-- Forgetting the bounds, the two operations follow each other as any two do. -/
theorem Consuming.outcome_andThen (x : Consuming n α)
    (f : α → (s : TokenStream) → s.remaining < n → Bounded s.remaining β)
    (g : α → TokenStream → Outcome Error TokenStream β)
    (h : ∀ a s hs, (f a s hs).outcome = g a s) :
    (x.andThen f).outcome = x.outcome.andThen g := by
  rw [andThen]
  split
  · next a ha => simp [Outcome.andThen_of_ok ha, h]
  · next e he => simp [Outcome.andThen_of_error he]

end TokenStream

end Calculator
