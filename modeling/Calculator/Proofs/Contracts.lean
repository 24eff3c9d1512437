import Calculator.Proofs.Phrases

/-!
# Contracts of the grammar rules

Whatever a rule of the grammar does to a stream, it does by taking heads. So an assertion about
streams that taking a head preserves is preserved by every rule, and what is known of a failure
needs to be shown for three failures only: a word that cannot be read after the head, a head with
which no factor begins, and a head that should be a closing parenthesis. A contract collects what
has to be shown; that the rules keep to it is proved once, along the rules.

An assertion may speak of the record as well, from the beginning on: then it says what was recorded
up to the place where the stream is now.

## Main definitions

* `Outcome.MeetsAfter`: what holds of record and state after success, and of error, record and state
  after failure.
* `Outcome.Meets`: the same when nothing is asked of the record.
* `TokenStream.Contract`: what has to be shown of taking a head, and of the other failures.

## Main results

* `TokenStream.take_meetsAfter`: taking a head, in terms of what is read after it.
* `TokenStream.phrase_meetsAfter`, `TokenStream.phrase_meets`: every rule keeps to a contract.
-/

namespace Calculator

variable {ε σ α β : Type}

/-- After success `good` holds of the record and of the state that is left, and after failure `bad`
holds of the error, the record and the state. What was recorded before is `log`. -/
def Outcome.MeetsAfter (log : List Event) (o : Outcome ε σ α) (good : List Event → σ → Prop)
    (bad : ε → List Event → σ → Prop) : Prop :=
  match o.result with
  | .ok _ => good (log ++ o.log) o.state
  | .error e => bad e (log ++ o.log) o.state

/-- After success `good` holds of the state that is left, and after failure `bad` holds of the error
and of the state. -/
def Outcome.Meets (o : Outcome ε σ α) (good : σ → Prop) (bad : ε → σ → Prop) : Prop :=
  o.MeetsAfter [] (fun _ => good) fun e _ => bad e

namespace Outcome

section Record

variable {log : List Event} {good middle : List Event → σ → Prop}
  {bad : ε → List Event → σ → Prop}

theorem MeetsAfter.of_ok {o : Outcome ε σ α} (h : o.MeetsAfter log good bad) {a : α}
    (ho : o.result = .ok a) : good (log ++ o.log) o.state := by
  rwa [MeetsAfter, ho] at h

theorem MeetsAfter.of_error {o : Outcome ε σ α} (h : o.MeetsAfter log good bad) {e : ε}
    (ho : o.result = .error e) : bad e (log ++ o.log) o.state := by
  rwa [MeetsAfter, ho] at h

@[simp] theorem ok_meetsAfter_iff {a : α} {s : σ} :
    (Outcome.ok a s : Outcome ε σ α).MeetsAfter log good bad ↔ good log s := by
  simp [MeetsAfter, Outcome.ok, Logged.ok]

@[simp] theorem error_meetsAfter_iff {e : ε} {s : σ} :
    (Outcome.error e s : Outcome ε σ α).MeetsAfter log good bad ↔ bad e log s := by
  simp [MeetsAfter, Outcome.error, Logged.error]

/-- One operation after another. The second has to meet its part only where the first left off. -/
theorem MeetsAfter.andThen {x : Outcome ε σ α} {f : α → σ → Outcome ε σ β}
    (hx : x.MeetsAfter log middle bad)
    (hf : ∀ a s log', x.Yields a s → middle log' s → (f a s).MeetsAfter log' good bad) :
    (x.andThen f).MeetsAfter log good bad := by
  cases hresult : x.result with
  | ok a =>
    have h := hf a x.state (log ++ x.log) ⟨hresult, rfl⟩ (hx.of_ok hresult)
    rw [MeetsAfter, andThen_of_ok hresult]
    simpa only [MeetsAfter, List.append_assoc] using h
  | error e =>
    have h := hx.of_error hresult
    rwa [MeetsAfter, andThen_of_error hresult]

end Record

variable {good : σ → Prop} {bad : ε → σ → Prop}

theorem Meets.of_ok {o : Outcome ε σ α} (h : o.Meets good bad) {a : α} (ho : o.result = .ok a) :
    good o.state := MeetsAfter.of_ok h ho

theorem Meets.of_error {o : Outcome ε σ α} (h : o.Meets good bad) {e : ε}
    (ho : o.result = .error e) : bad e o.state := MeetsAfter.of_error h ho

/-- The same may be asked after success and after failure. -/
theorem meetsAfter_same_iff {o : Outcome ε σ α} {log : List Event} :
    (o.MeetsAfter log (fun _ => good) fun _ _ => good) ↔ good o.state := by
  rw [MeetsAfter]
  cases o.result <;> rfl

end Outcome

namespace TokenStream

variable {good : List Event → TokenStream → Prop} {bad : Error → List Event → TokenStream → Prop}
  {log : List Event} {s : TokenStream}

/-- **Taking a head reads once more.** What is read becomes the head, or is an error, which leaves
the head in place. It is recorded that the head was taken, and then what was read. -/
theorem take_meetsAfter {k : Token.Kind} (hkind : s.head.token.kind = k)
    (hok : ∀ q, q.ReadFrom s.cursor → good (log ++ .taken s.head :: s.cursor.next.log) q)
    (herror : ∀ e q, s.cursor.next.result = .error e → q.cursor = s.cursor.next.state →
      q.head = s.head → bad (.lexical e) (log ++ .taken s.head :: s.cursor.next.log) q) :
    (s.take k).MeetsAfter log good bad := by
  rw [Outcome.MeetsAfter, log_take hkind]
  rcases s.take_cases k with ⟨hne, -⟩ | ⟨-, htake, hread⟩ | ⟨-, e, hnext, htake, hcursor, hhead⟩
  · exact absurd hkind hne
  · rw [htake]
    exact hok _ hread
  · rw [htake]
    exact herror e _ hnext hcursor hhead

/-- The assertion `good` is preserved where a head is taken, and `bad` holds wherever a rule can
fail while `good` holds. -/
structure Contract (good : List Event → TokenStream → Prop)
    (bad : Error → List Event → TokenStream → Prop) : Prop where
  take : ∀ log s, good log s → s.head.token ≠ .endOfInput →
    (s.take s.head.token.kind).MeetsAfter log good bad
  no_factor : ∀ log s, good log s → (∀ value, s.head.token ≠ .number value) →
    s.head.token ≠ .leftParen →
      bad (.syntactic (.expectedFactor s.head.token.kind s.head.position)) log s
  no_paren : ∀ log s, good log s → s.head.token.operator? = none → s.head.token ≠ .rightParen →
    bad (.syntactic (.unexpectedToken .rightParen s.head.token.kind s.head.position)) log s

theorem Contract.take_of_kind (h : Contract good bad) (hs : good log s) {k : Token.Kind}
    (hk : k ≠ .endOfInput) (hkind : s.head.token.kind = k) :
    (s.take k).MeetsAfter log good bad := by
  subst hkind
  exact h.take log s hs (mt Token.kind_eq_endOfInput_iff.mpr hk)

/-- Taking a closing parenthesis after an expression. -/
theorem Contract.take_rightParen (h : Contract good bad) (hs : good log s)
    (hfollows : Follows .expression s.head.token) :
    (s.take .rightParen).MeetsAfter log good bad := by
  by_cases hparen : s.head.token = .rightParen
  · exact h.take_of_kind hs (by decide) (by rw [hparen]; rfl)
  · rw [take_of_ne (mt Token.kind_eq_rightParen_iff.mp hparen), Outcome.error_meetsAfter_iff]
    exact h.no_paren log s hs (follows_expression_iff.mp hfollows) hparen

/-- **Every rule keeps to a contract.** -/
theorem phrase_meetsAfter (h : Contract good bad) (c : Category) (hs : good log s) :
    (s.phrase c).MeetsAfter log good bad := by
  have key := phrase_induction
    (P := fun c s => ∀ log, good log s → (s.phrase c).MeetsAfter log good bad)
    (Q := fun c s => ∀ left log, good log s → (chain c left s).MeetsAfter log good bad) ?_ ?_ ?_
  · exact key.1 c s log hs
  · intro s ih log hs
    rcases factor_cases s.head.token with ⟨value, hhead⟩ | hhead | ⟨hnumber, hparen⟩
    · rw [phrase_factor_of_number hhead]
      refine (h.take_of_kind hs (by decide) (by rw [hhead]; rfl)).andThen fun _ q _ _ hq => ?_
      exact Outcome.ok_meetsAfter_iff.mpr hq
    · rw [phrase_factor_of_leftParen hhead]
      refine (h.take_of_kind hs (by decide) (by rw [hhead]; rfl)).andThen fun _ q _ htake hq => ?_
      refine (ih q (remaining_lt_of_take (by decide) htake) _ hq).andThen
        fun e r _ hinner hr => ?_
      refine (h.take_rightParen hr (follows_of_phrase hinner)).andThen fun _ u _ _ hu => ?_
      exact Outcome.ok_meetsAfter_iff.mpr hu
    · rw [phrase_factor_of_other hnumber hparen, Outcome.error_meetsAfter_iff]
      exact h.no_factor log s hs hnumber hparen
  · intro op s ihoperand ihchain log hs
    rw [phrase_category]
    exact (ihoperand log hs).andThen fun left q _ hleft =>
      ihchain q (remaining_lt_of_phrase hleft) left _
  · intro c s ihphrase ihchain left log hs
    rcases chain_cases c s.head.token with ⟨op, rfl, hop⟩ | hno
    · rw [chain_of_operator hop]
      refine (h.take_of_kind hs (kind_operator_ne op) (by rw [hop])).andThen
        fun _ q _ htake hq => ?_
      have hlt := remaining_lt_of_take (kind_operator_ne op) htake
      refine (ihphrase op.operand q hlt _ hq).andThen fun right r _ hright hr => ?_
      exact ihchain r (Nat.lt_trans (remaining_lt_of_phrase hright) hlt) _ _ hr
    · rw [chain_of_no_operator hno, Outcome.ok_meetsAfter_iff]
      exact hs

/-- Every rule keeps to a contract that does not mention the record. -/
theorem phrase_meets {good : TokenStream → Prop} {bad : Error → TokenStream → Prop}
    (h : Contract (fun _ => good) fun e _ => bad e) (c : Category) (hs : good s) :
    (s.phrase c).Meets good bad := phrase_meetsAfter h c hs

end TokenStream

end Calculator
