import Calculator.Proofs.Phrases

/-!
# Machines that read lexemes

A machine has a state, looks at one lexeme after the other, and at each either goes on in another
state or stops with an answer. It stops with the error when a word is misspelled. Nothing is
assumed of the states: the machines of this development differ in how much of the past they keep.

`advance` feeds a machine a list of readings, and gives the state that it is in afterwards or the
answer with which it stopped on the way. Because either is a value, feeding two lists one after
the other is feeding their concatenation, and a run can be cut wherever the text can.

## Main definitions

* `Move`: what a machine does at a lexeme.
* `advance`: a run over a list of readings.
* `Outcome.resume`: what a machine does after an operation on a stream.
* `Move.Related`: two machines are in related states, or gave related answers.

## Main results

* `advance_append`: runs compose.
* `exists_of_advance_stop`: where a machine stops.
* `advance_take`: going on at the head of a stream is taking the head.
* `advance_related`: a relation that one step preserves is preserved by a run.
* `Move.Related.append`: such runs compose.
-/

namespace Calculator

variable {σ τ α β : Type}

/-- What a machine does at a lexeme. -/
inductive Move (σ α : Type) where
  | go (next : σ)
  | stop (answer : Except Error α)

/-- What a machine does at a reading: at an error it stops with it. -/
def Move.atReading (move : σ → Lexeme → Move σ α) (s : σ) : Reading → Move σ α
  | .ok l => move s l
  | .error e => .stop (.error (.lexical e))

/-- Feeds readings to a machine until it stops. -/
def advance (move : σ → Lexeme → Move σ α) : σ → List Reading → Move σ α
  | s, [] => .go s
  | s, r :: rs =>
    match Move.atReading move s r with
    | .go t => advance move t rs
    | .stop answer => .stop answer

@[simp] theorem advance_nil (move : σ → Lexeme → Move σ α) (s : σ) :
    advance move s [] = .go s := rfl

theorem advance_of_go {move : σ → Lexeme → Move σ α} {s t : σ} {l : Lexeme}
    (h : move s l = .go t) (rs : List Reading) :
    advance move s (.ok l :: rs) = advance move t rs := by
  rw [advance, Move.atReading, h]

theorem advance_of_stop {move : σ → Lexeme → Move σ α} {s : σ} {l : Lexeme}
    {answer : Except Error α} (h : move s l = .stop answer) (rs : List Reading) :
    advance move s (.ok l :: rs) = .stop answer := by
  rw [advance, Move.atReading, h]

@[simp] theorem advance_error (move : σ → Lexeme → Move σ α) (s : σ) (e : LexError)
    (rs : List Reading) : advance move s (.error e :: rs) = .stop (.error (.lexical e)) := rfl

theorem advance_singleton (move : σ → Lexeme → Move σ α) (s : σ) (r : Reading) :
    advance move s [r] = Move.atReading move s r := by
  rw [advance]
  cases Move.atReading move s r <;> rfl

/-- **Runs compose.** What comes after the place where a machine stopped does not matter. -/
theorem advance_append (move : σ → Lexeme → Move σ α) (s : σ) (rs rs' : List Reading) :
    advance move s (rs ++ rs') =
      match advance move s rs with
      | .go t => advance move t rs'
      | .stop answer => .stop answer := by
  induction rs generalizing s with
  | nil => rfl
  | cons r rs ih =>
    rw [List.cons_append, advance, advance]
    cases Move.atReading move s r with
    | go t => exact ih t
    | stop answer => rfl

/-- **A machine stops at one reading**, and the readings before it are lexemes at which it went
on. -/
theorem exists_of_advance_stop {move : σ → Lexeme → Move σ α} {s : σ} {rs : List Reading}
    {answer : Except Error α} (h : advance move s rs = .stop answer) :
    ∃ (ls : List Lexeme) (r : Reading) (rest : List Reading) (t : σ),
      rs = ls.map .ok ++ r :: rest ∧ advance move s (ls.map .ok) = .go t ∧
        Move.atReading move t r = .stop answer := by
  induction rs generalizing s with
  | nil => cases h
  | cons r rs ih =>
    rw [advance] at h
    cases hr : Move.atReading move s r with
    | stop a =>
      rw [hr] at h
      exact ⟨[], r, rs, s, rfl, rfl, hr.trans h⟩
    | go t =>
      rw [hr] at h
      obtain ⟨ls, r', rest, u, rfl, hgo, hstop⟩ := ih h
      cases r with
      | error e => cases hr
      | ok l => exact ⟨l :: ls, r', rest, u, rfl, (advance_of_go hr _).trans hgo, hstop⟩

/-! ### Machines and streams -/

/-- What a machine does after an operation on a stream: it goes on from where the operation left
the stream, or it stops with the error of the operation. -/
def Outcome.resume (o : Outcome Error TokenStream α) (k : α → TokenStream → Move σ β) :
    Move σ β :=
  match o.result with
  | .ok a => k a o.state
  | .error e => .stop (.error e)

namespace Outcome

theorem resume_ok (a : α) (s : TokenStream) (k : α → TokenStream → Move σ β) :
    (Outcome.ok a s : Outcome Error TokenStream α).resume k = k a s := rfl

theorem resume_error (e : Error) (s : TokenStream) (k : α → TokenStream → Move σ β) :
    (Outcome.error e s : Outcome Error TokenStream α).resume k = .stop (.error e) := rfl

theorem resume_andThen (x : Outcome Error TokenStream α)
    (f : α → TokenStream → Outcome Error TokenStream β) {γ : Type}
    (k : β → TokenStream → Move σ γ) :
    (x.andThen f).resume k = x.resume fun a q => (f a q).resume k := by
  cases hx : x.result with
  | ok a => simp only [resume, andThen_of_ok hx, hx]
  | error e => simp only [resume, andThen_of_error hx, hx]

theorem resume_congr {o : Outcome Error TokenStream α} {k k' : α → TokenStream → Move σ β}
    (h : ∀ a q, o.Yields a q → k a q = k' a q) : o.resume k = o.resume k' := by
  rw [resume, resume]
  cases ho : o.result with
  | ok a => exact h a o.state ⟨ho, rfl⟩
  | error e => rfl

end Outcome

/-- **Going on at the head of a stream is taking the head.** If the word after the head is
misspelled then the machine and the stream find the same error. -/
theorem advance_take {move : σ → Lexeme → Move σ α} {x y : σ} {s : TokenStream} {k : Token.Kind}
    (hk : k ≠ .endOfInput) (hkind : s.head.token.kind = k) (h : move x s.head = .go y) :
    advance move x s.readings = (s.take k).resume fun _ q => advance move y q.readings := by
  rw [Outcome.resume]
  cases htake : (s.take k).result with
  | ok t => rw [(TokenStream.readings_take hk htake).2, advance_of_go h]
  | error err =>
    obtain ⟨e, rs, rfl, hs⟩ := TokenStream.readings_take_error hk hkind htake
    rw [hs, advance_of_go h, advance_error]

/-- Stopping at the head of a stream does not depend on what comes after it. -/
theorem advance_readings_of_stop {move : σ → Lexeme → Move σ α} {x : σ} {s : TokenStream}
    {answer : Except Error α} (h : move x s.head = .stop answer) :
    advance move x s.readings = .stop answer :=
  advance_of_stop h _

/-! ### Two machines side by side -/

/-- Two machines are in related states, or have stopped with related answers. -/
inductive Move.Related (R : σ → τ → Prop) (A : Except Error α → Except Error β → Prop) :
    Move σ α → Move τ β → Prop where
  | go {s : σ} {t : τ} (h : R s t) : Move.Related R A (.go s) (.go t)
  | stop {a : Except Error α} {b : Except Error β} (h : A a b) :
    Move.Related R A (.stop a) (.stop b)

/-- **A relation that one step preserves is preserved by a run**, where the second machine may be
fed another reading for each reading of the first. -/
theorem advance_related {R : σ → τ → Prop} {A : Except Error α → Except Error β → Prop}
    {move : σ → Lexeme → Move σ α} {move' : τ → Lexeme → Move τ β} {g : Reading → Reading}
    (hstep : ∀ s t r, R s t →
      Move.Related R A (Move.atReading move s r) (Move.atReading move' t (g r)))
    {s : σ} {t : τ} (h : R s t) (rs : List Reading) :
    Move.Related R A (advance move s rs) (advance move' t (rs.map g)) := by
  induction rs generalizing s t with
  | nil => exact .go h
  | cons r rs ih =>
    have hr := hstep s t r h
    rw [List.map_cons, advance, advance]
    generalize Move.atReading move s r = x at hr
    generalize Move.atReading move' t (g r) = y at hr
    cases hr with
    | go h' => exact ih h'
    | stop ha => exact .stop ha

/-- Two runs side by side compose when what comes next keeps related states related. -/
theorem Move.Related.append {R : σ → τ → Prop} {A : Except Error α → Except Error β → Prop}
    {move : σ → Lexeme → Move σ α} {move' : τ → Lexeme → Move τ β} {s : σ} {t : τ}
    {rs rs' qs qs' : List Reading}
    (h : Move.Related R A (advance move s rs) (advance move' t rs'))
    (hnext : ∀ s' t', R s' t' →
      Move.Related R A (advance move s' qs) (advance move' t' qs')) :
    Move.Related R A (advance move s (rs ++ qs)) (advance move' t (rs' ++ qs')) := by
  rw [advance_append, advance_append]
  generalize advance move s rs = x at h
  generalize advance move' t rs' = y at h
  cases h with
  | go h' => exact hnext _ _ h'
  | stop ha => exact .stop ha

end Calculator
