import Calculator.Proofs.Derivations
import Calculator.Proofs.Discipline
import Calculator.Proofs.Recovery

/-!
# The rules of the grammar make progress

A rule that succeeds has taken a lexeme, so that its stream has moved on in the text, and it does
not stop before an operator that it could have taken. A rule only takes a head that it has looked
at, or else a closing parenthesis; so there is one kind that can be missed, and what is found in its
place is neither that nor an operator. The end of the input is never taken.

Therefore the rules come to an end. That they are functions says so already, but it says so through
a measure which is part of their definition. Here the rules are written down once more with a bound
on the nesting of calls and no measure, and the bound is shown to be large enough if it is a little
more than three times the length of the text. The factor is the number of categories: in one place a
rule calls rules of lower categories only.

## Main definitions

* `Outcome.andThen?`: one operation, and on success another that need not come to an end.
* `TokenStream.phraseWithin`, `TokenStream.chainWithin`: the rules with a bound on the nesting of
  calls.
* `TokenStream.EndNotTaken`, `TokenStream.Refuses`: what a rule leaves, and what it refuses.

## Main results

* `TokenStream.LastRead.position_lt_of_phrase`: a phrase moves a stream on.
* `TokenStream.contract_progress`: what is taken, and what is refused.
* `TokenStream.phraseWithin_eq`: the bound is large enough.
* `rules_make_progress`: all of this, for the streams of a text.
-/

namespace Calculator

variable {ε σ α β : Type}

/-- An operation, and on success another from the state that it left, which need not come to an
end. -/
def Outcome.andThen? (x : Outcome ε σ α) (f : α → σ → Option (Outcome ε σ β)) :
    Option (Outcome ε σ β) :=
  match x.result with
  | .ok a => (f a x.state).map fun y => ⟨⟨y.result, x.log ++ y.log⟩, y.state⟩
  | .error e => some ⟨⟨.error e, x.log⟩, x.state⟩

/-- If the second operation comes to an end, then both do. -/
theorem Outcome.andThen?_eq_some {x : Outcome ε σ α} {f : α → σ → Option (Outcome ε σ β)}
    {g : α → σ → Outcome ε σ β} (h : ∀ a s, x.Yields a s → f a s = some (g a s)) :
    x.andThen? f = some (x.andThen g) := by
  cases hresult : x.result with
  | ok a =>
    rw [andThen_of_ok hresult, andThen?, hresult]
    simp only [h a x.state ⟨hresult, rfl⟩, Option.map_some]
  | error e =>
    rw [andThen_of_error hresult, andThen?, hresult]

namespace TokenStream

variable {text : String} {s q r : TokenStream} {c : Category} {e : Expr} {n : Nat}

/-! ### Moving on -/

/-- What a stream has still to give is found in the order of the text, also where the head is older
than what the cursor has read last. -/
theorem LastRead.pairwise_position (h : LastRead text s) :
    s.readings.Pairwise fun a b => Reading.position a < Reading.position b := by
  obtain ⟨before, errors, after, htext, hs⟩ := h.exists_readings_eq
  have hpairwise := pairwise_position_readings text
  rw [htext] at hpairwise
  rw [hs]
  refine hpairwise.sublist (List.Sublist.trans ?_ (List.sublist_append_right before _))
  exact (List.sublist_append_right _ after).cons_cons _

/-- **A phrase moves a stream on.** -/
theorem LastRead.position_lt_of_phrase (h : LastRead text s) (he : (s.phrase c).Yields e r) :
    s.head.position < r.head.position := by
  obtain ⟨ls, hreadings, hderives⟩ := spells_of_phrase he
  obtain ⟨l, rest, rfl, -, -⟩ := hderives.exists_head
  have hhead : s.head = l := head_of_readings hreadings
  have hpairwise := h.pairwise_position
  rw [hreadings, List.map_cons, List.cons_append, List.pairwise_cons] at hpairwise
  rw [hhead]
  exact hpairwise.1 (.ok r.head) (by simp [readings])

/-- There are not more tokens to be taken than characters in the text. -/
theorem LastRead.remaining_le (h : LastRead text s) : s.remaining ≤ text.length := by
  obtain ⟨before, hstands⟩ := h.exists_stands
  have hlength : text.length = before.length + s.cursor.rest.length := by
    rw [← String.length_toList, hstands.text_eq, List.length_append]
  rw [remaining]
  split
  · omega
  · next hend =>
    -- the head has been read, and so the cursor is not at the beginning
    have hoffset := s.position_lt hend
    have hbefore : before ≠ [] := by
      rintro rfl
      rw [hstands.offset_eq, byteLength_nil] at hoffset
      exact absurd hoffset (Nat.not_lt_zero _)
    have hpos := List.length_pos_iff.mpr hbefore
    omega

/-! ### What is taken, and what is refused -/

/-- Reading does not take anything. -/
theorem takenIn_log_next (c : Cursor) : takenIn c.next.log = [] := by
  cases hx : c.exhausted with
  | true =>
    rw [Cursor.next_of_exhausted hx]
    rfl
  | false =>
    cases hread : c.reading with
    | error e =>
      rw [Cursor.log_next_of_error (map_eq_error_iff.mp hread)]
      rfl
    | ok l =>
      rw [Cursor.log_next_of_ok hx hread, takenIn_cons, Event.taken?_found]
      rfl

/-- The end of the input is not among the lexemes that were taken. -/
def EndNotTaken (log : List Event) : Prop := ∀ l ∈ takenIn log, l.token ≠ .endOfInput

/-- If a head is of another kind than expected, then a closing parenthesis was expected, and
instead there is the end of the input or the beginning of an operand. -/
def Refuses : Error → Prop
  | .syntactic (.unexpectedToken expected found _) =>
    expected = .rightParen ∧ found ∈ [Token.Kind.number, .leftParen, .endOfInput]
  | _ => True

theorem kind_mem_of_no_operator {t : Token} (hop : t.operator? = none) (hparen : t ≠ .rightParen) :
    t.kind ∈ [Token.Kind.number, .leftParen, .endOfInput] := by
  cases t <;> simp_all [Token.operator?, Token.kind]

/-- **The end is not taken, and only a closing parenthesis is missed.** -/
theorem contract_progress :
    Contract (fun log _ => EndNotTaken log) fun e log _ => EndNotTaken log ∧ Refuses e where
  take log s hlog hend := by
    have htaken : EndNotTaken (log ++ .taken s.head :: s.cursor.next.log) := by
      intro l hl
      rw [takenIn_append, takenIn_cons, takenIn_log_next, List.append_nil, List.mem_append] at hl
      rcases hl with hl | hl
      · exact hlog l hl
      · rw [Event.taken?, Option.toList_some, List.mem_singleton] at hl
        rw [hl]
        exact hend
    exact take_meetsAfter rfl (fun _ _ => htaken) fun _ _ _ _ _ => ⟨htaken, trivial⟩
  no_factor _ _ hlog _ _ := ⟨hlog, trivial⟩
  no_paren _ _ hlog hop hparen := ⟨hlog, rfl, kind_mem_of_no_operator hop hparen⟩

theorem phrase_progress (c : Category) (s : TokenStream) :
    (s.phrase c).MeetsAfter [] (fun log _ => EndNotTaken log)
      fun e log _ => EndNotTaken log ∧ Refuses e :=
  phrase_meetsAfter contract_progress c fun l hl => by cases hl

/-- The end of the input is never taken by a rule, whether it succeeds or fails. -/
theorem endNotTaken_phrase (c : Category) (s : TokenStream) : EndNotTaken (s.phrase c).log := by
  have hmeets := phrase_progress c s
  cases hresult : (s.phrase c).result with
  | ok e => exact hmeets.of_ok hresult
  | error e => exact (hmeets.of_error hresult).1

/-! ### Coming to an end -/

mutual

/-- The rule of a category; `none` if calls would be nested deeper than `n`. -/
def phraseWithin : Nat → Category → TokenStream → Option (Outcome Error TokenStream Expr)
  | 0, _, _ => none
  | n + 1, .factor, s =>
    match s.head.token with
    | .number value =>
      (s.take .number).andThen? fun _ q => some (.ok (.literal value s.head.position) q)
    | .leftParen =>
      (s.take .leftParen).andThen? fun _ q =>
        (phraseWithin n .expression q).bind fun inner =>
          inner.andThen? fun e r => (r.take .rightParen).andThen? fun _ t => some (.ok e t)
    | token => some (.error (.syntactic (.expectedFactor token.kind s.head.position)) s)
  | n + 1, .term, s =>
    (phraseWithin n .factor s).bind fun first => first.andThen? (chainWithin n .term)
  | n + 1, .expression, s =>
    (phraseWithin n .term s).bind fun first => first.andThen? (chainWithin n .expression)

/-- The rest of a chain of operators of a category, where each operator counts as a call; `none` if
calls would be nested deeper than `n`. -/
def chainWithin : Nat → Category → Expr → TokenStream → Option (Outcome Error TokenStream Expr)
  | 0, _, _, _ => none
  | n + 1, c, left, s =>
    match s.head.token.operator? with
    | some op =>
      if op.category = c then
        (s.take op.token.kind).andThen? fun _ q =>
          (phraseWithin n op.operand q).bind fun operand =>
            operand.andThen? fun right r =>
              chainWithin n c (.binary op left right s.head.position) r
      else some (.ok left s)
    | none => some (.ok left s)

end

theorem phraseWithin_category (n : Nat) (op : Operator) (s : TokenStream) :
    s.phraseWithin (n + 1) op.category =
      (s.phraseWithin n op.operand).bind fun first =>
        first.andThen? (chainWithin n op.category) := by
  cases op <;> rfl

/-- **The bound is large enough**: a rule comes to an end with three calls for every token that can
be taken, and those in the first place. -/
theorem phraseWithin_eq (h : 3 * s.remaining + c.rank < n) :
    s.phraseWithin n c = some (s.phrase c) := by
  have key := phrase_induction
    (P := fun c s => ∀ n, 3 * s.remaining + c.rank < n → s.phraseWithin n c = some (s.phrase c))
    (Q := fun c s => ∀ left n, 3 * s.remaining < n →
      chainWithin n c left s = some (chain c left s)) ?_ ?_ ?_
  · exact key.1 c s n h
  · intro s ih n hn
    obtain ⟨n, rfl⟩ := Nat.exists_eq_add_one_of_ne_zero (Nat.ne_zero_of_lt hn)
    rcases factor_cases s.head.token with ⟨value, hhead⟩ | hhead | ⟨hnumber, hparen⟩
    · rw [phrase_factor_of_number hhead, phraseWithin, hhead]
      exact Outcome.andThen?_eq_some fun _ _ _ => rfl
    · rw [phrase_factor_of_leftParen hhead, phraseWithin, hhead]
      refine Outcome.andThen?_eq_some fun _ q htake => ?_
      have hlt := remaining_lt_of_take (by decide) htake
      rw [ih q hlt n (by simp only [Category.rank] at hn ⊢; omega), Option.bind_some]
      refine Outcome.andThen?_eq_some fun e r _ => ?_
      exact Outcome.andThen?_eq_some fun _ _ _ => rfl
    · rw [phrase_factor_of_other hnumber hparen, phraseWithin]
      split
      · next value hhead => exact absurd hhead (hnumber value)
      · next hhead => exact absurd hhead hparen
      · rfl
  · intro op s ihoperand ihchain n hn
    obtain ⟨n, rfl⟩ := Nat.exists_eq_add_one_of_ne_zero (Nat.ne_zero_of_lt hn)
    have hrank := rank_category op
    rw [phrase_category, phraseWithin_category, ihoperand n (by omega), Option.bind_some]
    refine Outcome.andThen?_eq_some fun left q hleft => ?_
    have hlt := remaining_lt_of_phrase hleft
    exact ihchain q hlt left n (by omega)
  · intro c s ihphrase ihchain left n hn
    obtain ⟨n, rfl⟩ := Nat.exists_eq_add_one_of_ne_zero (Nat.ne_zero_of_lt hn)
    rcases chain_cases c s.head.token with ⟨op, rfl, hop⟩ | hno
    · rw [chain_of_operator hop, chainWithin, Token.operator?_eq_some_iff.mpr hop]
      simp only [if_true]
      refine Outcome.andThen?_eq_some fun _ q htake => ?_
      have hlt := remaining_lt_of_take (kind_operator_ne op) htake
      have hrank : op.operand.rank ≤ 1 := by cases op <;> decide
      rw [ihphrase op.operand q hlt n (by omega), Option.bind_some]
      refine Outcome.andThen?_eq_some fun right r hright => ?_
      have hlt' := remaining_lt_of_phrase hright
      exact ihchain r (Nat.lt_trans hlt' hlt) _ n (by omega)
    · rw [chain_of_no_operator hno, chainWithin]
      split
      · next op hop =>
        rw [if_neg fun hc => hno op hc (Token.operator?_eq_some_iff.mp hop)]
      · rfl

end TokenStream

/-- **The rules of the grammar make progress.** Let a stream be made at a place of a text that some
readings lead to, and let anything be done with it, errors passed over. A phrase that is taken then
moves the stream on. A term does not stop before an operator of its own, and an expression before no
operator at all. A rule never takes the end of the input, and the only kind that it expects in vain
is the closing parenthesis, where there is the end or the beginning of an operand. And a rule comes
to an end: a bound on the nesting of calls that grows with the text is never reached. -/
theorem rules_make_progress {text : String} {n : Nat} {s q : TokenStream}
    (hs : (TokenStream.ofCursor ((Cursor.ofString text).skip n)).result = .ok s)
    {ops : List Operation} (hq : s.afterAll ops = q) :
    (∀ c e r, (q.phrase c).Yields e r → q.head.position < r.head.position) ∧
    (∀ e r, q.term.Yields e r → r.head.token ∉ [Token.star, .slash]) ∧
    (∀ e r, q.expression.Yields e r → r.head.token ∉ [Token.plus, .minus, .star, .slash]) ∧
    (∀ c expected found p,
      (q.phrase c).result = .error (.syntactic (.unexpectedToken expected found p)) →
        expected = .rightParen ∧ found ∈ [Token.Kind.number, .leftParen, .endOfInput]) ∧
    (∀ c l, .taken l ∈ (q.phrase c).log → l.token ≠ .endOfInput) ∧
    ∀ c m, 3 * text.length + c.rank < m → q.phraseWithin m c = some (q.phrase c) := by
  have hlast : TokenStream.LastRead text q := hq ▸ (TokenStream.lastRead_ofCursor hs).afterAll ops
  refine ⟨fun c e r he => hlast.position_lt_of_phrase he, fun e r he => ?_, fun e r he => ?_,
    fun c expected found p he => ?_, fun c l hl => ?_, fun c m hm => ?_⟩
  · have hfollows := TokenStream.follows_of_phrase he
    intro hmem
    simp only [List.mem_cons, List.not_mem_nil, or_false] at hmem
    rcases hmem with htoken | htoken <;> rw [htoken] at hfollows
    · exact absurd (hfollows .mul rfl) (by decide)
    · exact absurd (hfollows .div rfl) (by decide)
  · exact operator?_eq_none_iff.mp (follows_expression_iff.mp (TokenStream.follows_of_phrase he))
  · exact ((TokenStream.phrase_progress c q).of_error he).2
  · exact TokenStream.endNotTaken_phrase c q l (mem_takenIn_iff.mpr hl)
  · have hremaining := hlast.remaining_le
    exact TokenStream.phraseWithin_eq (by omega)

/-- The word after the first literal is misspelled, and so the literal stays at the head. It can be
taken nevertheless, and then the operator is reached. The whole expression cannot be taken, because
a literal stands where a parenthesis should be closed. -/
theorem rules_make_progress_misspelled :
    ∃ s, (TokenStream.ofCursor ((Cursor.ofString "2 ? * (4 5").skip 0)).result = .ok s ∧
      (∃ e r, ((s.afterAll [.take .number]).phrase .factor).Yields e r ∧
        (s.afterAll [.take .number]).head.position < r.head.position) ∧
      (∃ found, ((s.afterAll [.take .number]).phrase .expression).result =
          .error (.syntactic (.unexpectedToken .rightParen found 9)) ∧
        found ∈ [Token.Kind.number, .leftParen, .endOfInput]) ∧
      (s.afterAll [.take .number]).phraseWithin 33 .expression =
        some ((s.afterAll [.take .number]).phrase .expression) := by
  obtain ⟨s, hs⟩ := exists_ok_of_isSome
    (x := (TokenStream.ofCursor ((Cursor.ofString "2 ? * (4 5").skip 0)).result) (by decide +kernel)
  have hfactor : (TokenStream.ofCursor
      ((Cursor.ofString "2 ? * (4 5").skip 0)).result.toOption.bind (fun s =>
        ((s.afterAll [.take .number]).phrase .factor).result.toOption) =
      some (.literal ⟨2, by decide, by decide⟩ 0) := by
    decide +kernel
  have hparen : (TokenStream.ofCursor
      ((Cursor.ofString "2 ? * (4 5").skip 0)).result.toOption.bind (fun s =>
        error? ((s.afterAll [.take .number]).phrase .expression).result) =
      some (.syntactic (.unexpectedToken .rightParen .number 9)) := by
    decide +kernel
  rw [hs] at hfactor hparen
  obtain ⟨hmoves, -, -, hrefuses, -, hends⟩ :=
    rules_make_progress hs (rfl : s.afterAll [.take .number] = _)
  have hyields := ok_of_toOption hfactor
  have hfails := error_of_error? hparen
  exact ⟨s, hs, ⟨_, _, ⟨hyields, rfl⟩, hmoves _ _ _ ⟨hyields, rfl⟩⟩,
    ⟨_, hfails, (hrefuses _ _ _ _ hfails).2⟩, hends .expression 33 (by decide +kernel)⟩

end Calculator
