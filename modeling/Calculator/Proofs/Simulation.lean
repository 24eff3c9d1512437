import Calculator.Proofs.Operations
import Calculator.Proofs.Relocation

/-!
# Two streams side by side

Two streams of which the same can be seen now need not remain so, since a stream does not show what
its cursor will read. But if they are related in a way that taking heads preserves, and related
streams have the same head, then the same is seen of both whatever is done with them, after errors
too. That is to be shown for taking heads only; the grammar rules add nothing to it.

The positions of the second stream may differ from those of the first, in the same way everywhere.

## Main definitions

* `Outcome.Corresponds`: two operations have the same result, moved, and leave related streams.
* `TokenStream.Simulation`: a relation between streams that taking heads preserves.

## Main results

* `TokenStream.Simulation.phrase`: such a relation is preserved by every rule.
* `TokenStream.Simulation.observe_eq`: the same is seen of related streams, whatever is done.
-/

namespace Calculator

/-- Moves what an operation gives. -/
def Output.mapPosition (f : Nat → Nat) : Output → Output
  | .token t => .token t
  | .tree e => .tree (e.mapPosition f)
  | .value n => .value n

/-- Moves what is seen by an operation. -/
def Observation.mapPosition (f : Nat → Nat) (o : Observation) : Observation :=
  ⟨(o.result.map (Output.mapPosition f)).mapError (Error.mapPosition f), o.head.mapPosition f⟩

variable {α β γ δ : Type} {f : Nat → Nat} {R : TokenStream → TokenStream → Prop}

/-- The second operation has the result of the first, `g` of its value or its error moved, and the
streams that they leave are related. -/
structure Outcome.Corresponds (f : Nat → Nat) (R : TokenStream → TokenStream → Prop) (g : α → β)
    (x : Outcome Error TokenStream α) (y : Outcome Error TokenStream β) : Prop where
  result_eq : y.result = (x.result.map g).mapError (Error.mapPosition f)
  state : R x.state y.state

namespace Outcome

theorem corresponds_ok {s t : TokenStream} (h : R s t) (g : α → β) (a : α) :
    Corresponds f R g (Outcome.ok a s) (Outcome.ok (g a) t) := ⟨rfl, h⟩

theorem corresponds_error {s t : TokenStream} (h : R s t) (g : α → β) (e : Error) :
    Corresponds f R g (Outcome.error e s) (Outcome.error (e.mapPosition f) t) := ⟨rfl, h⟩

/-- One operation after another. -/
theorem Corresponds.andThen {x : Outcome Error TokenStream α} {y : Outcome Error TokenStream β}
    {g : α → β} {next : α → TokenStream → Outcome Error TokenStream γ}
    {next' : β → TokenStream → Outcome Error TokenStream δ} {g' : γ → δ}
    (h : Corresponds f R g x y)
    (hnext : ∀ a s t, x.Yields a s → R s t → Corresponds f R g' (next a s) (next' (g a) t)) :
    Corresponds f R g' (x.andThen next) (y.andThen next') := by
  have hy := h.result_eq
  cases hx : x.result with
  | ok a =>
    rw [hx] at hy
    have key := hnext a x.state y.state ⟨hx, rfl⟩ h.state
    rw [andThen_of_ok hx, andThen_of_ok hy]
    exact ⟨key.result_eq, key.state⟩
  | error e =>
    rw [hx] at hy
    rw [andThen_of_error hx, andThen_of_error hy]
    exact ⟨rfl, h.state⟩

/-- Results correspond as outputs if their values do. -/
theorem Corresponds.map_result {x : Outcome Error TokenStream α}
    {y : Outcome Error TokenStream β} {g : α → β} {out : α → Output} {out' : β → Output}
    (h : Corresponds f R g x y) (hout : ∀ a, out' (g a) = (out a).mapPosition f) :
    y.result.map out' =
      ((x.result.map out).map (Output.mapPosition f)).mapError (Error.mapPosition f) := by
  rw [h.result_eq]
  cases x.result with
  | ok a => exact congrArg _ (hout a)
  | error e => rfl

end Outcome

namespace TokenStream

/-- Related streams have the same head, moved, and taking it relates what is left. -/
structure Simulation (f : Nat → Nat) (R : TokenStream → TokenStream → Prop) : Prop where
  head_eq : ∀ {s t}, R s t → t.head = s.head.mapPosition f
  take : ∀ {s t}, R s t → ∀ k, Outcome.Corresponds f R id (s.take k) (t.take k)

namespace Simulation

variable {s t : TokenStream}

theorem token_eq (h : Simulation f R) (hst : R s t) : t.head.token = s.head.token := by
  rw [h.head_eq hst, Lexeme.token_mapPosition]

theorem position_eq (h : Simulation f R) (hst : R s t) :
    t.head.position = f s.head.position := by
  rw [h.head_eq hst, Lexeme.position_mapPosition]

/-- **A simulation is preserved by every rule**, and the trees are the same. -/
theorem phrase (h : Simulation f R) (c : Category) (hst : R s t) :
    Outcome.Corresponds f R (Expr.mapPosition f) (s.phrase c) (t.phrase c) := by
  have key := phrase_induction
    (P := fun c s => ∀ t, R s t →
      Outcome.Corresponds f R (Expr.mapPosition f) (s.phrase c) (t.phrase c))
    (Q := fun c s => ∀ left t, R s t →
      Outcome.Corresponds f R (Expr.mapPosition f) (chain c left s)
        (chain c (left.mapPosition f) t)) ?_ ?_ ?_
  · exact key.1 c s t hst
  · intro s ih t hst
    rcases factor_cases s.head.token with ⟨value, hhead⟩ | hhead | ⟨hnumber, hparen⟩
    · rw [phrase_factor_of_number hhead, phrase_factor_of_number ((h.token_eq hst).trans hhead),
        h.position_eq hst]
      exact (h.take hst .number).andThen fun _ q r _ hqr => Outcome.corresponds_ok hqr _ _
    · rw [phrase_factor_of_leftParen hhead,
        phrase_factor_of_leftParen ((h.token_eq hst).trans hhead)]
      refine (h.take hst .leftParen).andThen fun _ q r htake hqr => ?_
      refine (ih q (remaining_lt_of_take (by decide) htake) r hqr).andThen fun e u v _ huv => ?_
      exact (h.take huv .rightParen).andThen fun _ w x _ hwx => Outcome.corresponds_ok hwx _ _
    · rw [phrase_factor_of_other hnumber hparen]
      rw [← h.token_eq hst] at hnumber hparen
      rw [phrase_factor_of_other hnumber hparen, h.token_eq hst, h.position_eq hst]
      exact Outcome.corresponds_error hst _ _
  · intro op s ihoperand ihchain t hst
    rw [phrase_category, phrase_category]
    exact (ihoperand t hst).andThen fun left q r hleft hqr =>
      ihchain q (remaining_lt_of_phrase hleft) left r hqr
  · intro c s ihphrase ihchain left t hst
    rcases chain_cases c s.head.token with ⟨op, rfl, hop⟩ | hno
    · rw [chain_of_operator hop, chain_of_operator ((h.token_eq hst).trans hop),
        h.position_eq hst]
      refine (h.take hst op.token.kind).andThen fun _ q r htake hqr => ?_
      have hlt := remaining_lt_of_take (kind_operator_ne op) htake
      refine (ihphrase op.operand q hlt r hqr).andThen fun right u v hright huv => ?_
      exact ihchain u (Nat.lt_trans (remaining_lt_of_phrase hright) hlt) _ v huv
    · rw [chain_of_no_operator hno]
      rw [← h.token_eq hst] at hno
      rw [chain_of_no_operator hno]
      exact Outcome.corresponds_ok hst _ _

/-- The same expressions are accepted. -/
theorem parse (h : Simulation f R) (strict : Bool) (hst : R s t) :
    Outcome.Corresponds f R (Expr.mapPosition f) (s.parse strict) (t.parse strict) := by
  rw [TokenStream.parse, TokenStream.parse]
  refine (h.phrase .expression hst).andThen fun e q r _ hqr => ?_
  rw [h.token_eq hqr, h.position_eq hqr]
  split <;> exact ⟨rfl, hqr⟩

/-- The same values are given. -/
theorem evaluateNext (h : Simulation f R) (hst : R s t) :
    Outcome.Corresponds f R id s.evaluateNext t.evaluateNext := by
  rw [TokenStream.evaluateNext, TokenStream.evaluateNext]
  refine (h.parse false hst).andThen fun e q r _ hqr => ⟨?_, hqr⟩
  have hagrees : Expr.Agrees f e (e.mapPosition f) := Expr.agrees_congruence.mapPosition e
  rw [Logged.result_mapError, Logged.result_mapError, hagrees]
  cases e.evaluate.result <;> rfl

/-- Related streams are related again after every operation. -/
theorem after (h : Simulation f R) (op : Operation) (hst : R s t) :
    R (s.after op) (t.after op) := by
  cases op with
  | take k => exact (h.take hst k).state
  | phrase c => exact (h.phrase c hst).state
  | parse strict => exact (h.parse strict hst).state
  | evaluateNext => exact (h.evaluateNext hst).state

/-- Every operation gives the same. -/
theorem output_eq (h : Simulation f R) (op : Operation) (hst : R s t) :
    t.output op = ((s.output op).map (Output.mapPosition f)).mapError (Error.mapPosition f) := by
  cases op with
  | take k => exact (h.take hst k).map_result fun _ => rfl
  | phrase c => exact (h.phrase c hst).map_result fun _ => rfl
  | parse strict => exact (h.parse strict hst).map_result fun _ => rfl
  | evaluateNext => exact (h.evaluateNext hst).map_result fun _ => rfl

/-- **The same is seen of related streams, whatever is done.** -/
theorem observe_eq (h : Simulation f R) (ops : List Operation) (hst : R s t) :
    t.observe ops = (s.observe ops).map (Observation.mapPosition f) := by
  induction ops generalizing s t with
  | nil => rfl
  | cons op ops ih =>
    have hafter := h.after op hst
    rw [observe, observe, List.map_cons, ih hafter, h.output_eq op hst, h.head_eq hafter]
    rfl

end Simulation

end TokenStream

end Calculator
