import Calculator.Proofs.Contracts
import Calculator.Proofs.Pushdown
import Calculator.Proofs.Record
import Calculator.Proofs.StackMachine

/-!
# The order in which an evaluation does things

To evaluate a text is to read it one lexeme ahead, then to accept the expression, and then to apply
its operators. That the record has the form that this asks for is what a contract of the grammar
rules preserves (`contract_record`); accepting and evaluating add to it what comes after reading.

## Main definitions

* `record`: what is recorded when a text is evaluated.
* `Disciplined`: the record of an evaluation in which everything happens in its stage.

## Main results

* `TokenStream.contract_record`: taking heads keeps to the form of the record.
* `exists_shape`: the record of an evaluation has this form.
* `record_disciplined`: what happens when a text is evaluated, and in which order.
-/

namespace Calculator

/-- What is recorded when a text is evaluated, down to the least important events. -/
def record (text : String) (strict : Bool) : List Event := (evaluateLogged text strict).log

/-- The record of an evaluation in which reading keeps one lexeme ahead, and everything happens in
its stage. -/
structure Disciplined (text : String) (strict : Bool) (log : List Event) : Prop
    extends OneAhead log where
  /-- The lexemes that were read are the first ones of the text. -/
  lexed_isPrefix : (lexedIn log).map .ok <+: readings text
  /-- If the text is parsed, the lexemes that were taken are those of the expression. -/
  taken_derives : ∀ e, parse text strict = .ok e → Derives .expression (takenIn log) e
  in_stages : log.Pairwise fun d e => d.stage.rank ≤ e.stage.rank
  /-- If the text is parsed, it is said once that the expression is accepted. -/
  parsed_eq : log.filter (·.stage = .parsed) =
    match parse text strict with
    | .ok e => [if strict then .parsedComplete e else .parsed e]
    | .error _ => []
  parsed_of_applying : ∀ e ∈ log, e.stage = .applying → ∃ d ∈ log, d.stage = .parsed
  /-- If the text is not read, or not accepted, nothing comes after reading. -/
  reading_of_error : ∀ err, evaluate text strict = .error err → (∀ cause, err ≠ .runtime cause) →
    ∀ e ∈ log, e.stage = .reading
  /-- What is said to be ignored is the lexeme that was read last, and never taken. -/
  ignoredTrailing_iff : ∀ l, .ignoredTrailing l ∈ log ↔
    strict = false ∧ (∃ e, parse text strict = .ok e) ∧
      (lexedIn log).getLast? = some l ∧ .taken l ∉ log

/-! ### What reading and taking record -/

namespace Cursor

variable {c : Cursor}

/-- What is found is recorded. -/
theorem log_next_of_ok (h : c.exhausted = false) {l : Lexeme} (hl : c.reading = .ok l) :
    c.next.log = [.found l] := by
  obtain ⟨hresult, hposition⟩ := reading_eq_ok_iff.mp hl
  cases hrest : c.rest.dropWhile isBlank with
  | nil =>
    rw [next_of_blank h hrest] at hresult hposition ⊢
    have htoken : l.token = .endOfInput := (Except.ok.inj hresult).symm
    simp [Event.found, htoken, ← hposition, atEnd]
  | cons ch cs =>
    have hword := (next_of_word hrest).1.symm.trans hresult
    have hne : l.token ≠ .endOfInput := fun hend =>
      Token.ofWord_ne_endOfInput _ _ _ (hend ▸ hword)
    have hl : (⟨l.token, c.start⟩ : Lexeme) = l := by
      rw [(next_of_word hrest).2] at hposition
      exact congrArg (Lexeme.mk l.token) hposition
    rw [Event.found, if_neg hne]
    simp [next, h, hrest, hword, hl]

/-- A misspelled word is not recorded. -/
theorem log_next_of_error {e : LexError} (h : c.next.result = .error e) : c.next.log = [] := by
  cases hx : c.exhausted with
  | true => rw [next_of_exhausted hx]; rfl
  | false =>
    cases hrest : c.rest.dropWhile isBlank with
    | nil =>
      rw [next_of_blank hx hrest] at h
      cases h
    | cons ch cs =>
      have hword := (next_of_word hrest).1.symm.trans h
      simp [next, hx, hrest, hword, Outcome.error, Logged.error]

end Cursor

namespace TokenStream

variable {text : String} {log : List Event} {s : TokenStream}

/-- What is recorded up to a place of a stream: the lexemes before the head were read and taken,
and the head was read. -/
def RecordedTo (text : String) (log : List Event) (s : TokenStream) : Prop :=
  ∃ ls, log = passed ls ++ [.found s.head] ∧ Calculator.readings text = ls.map .ok ++ s.readings

/-- A record that ends with a failure of reading or of a rule. -/
def BrokenOff (text : String) (log : List Event) : Prop := ∃ ls head, Shape text log ls head []

/-- Other things may be recorded after that. -/
theorem shape_of_recorded {ls : List Lexeme} {others : List Event}
    (hlog : log = passed ls ++ [.found s.head])
    (hreadings : Calculator.readings text = ls.map .ok ++ s.readings)
    (hothers : ∀ e ∈ others, e.stage ≠ .reading) :
    Shape text (log ++ others) ls (some s.head) others := by
  refine ⟨by simp [hlog], ?_, hothers⟩
  rw [hreadings, readings]
  exact ⟨if s.head.token = .endOfInput then [] else s.cursor.readings, by simp⟩

theorem RecordedTo.brokenOff (h : RecordedTo text log s) : BrokenOff text log := by
  obtain ⟨ls, hlog, hreadings⟩ := h
  have hnone : ∀ e ∈ ([] : List Event), e.stage ≠ .reading := by simp
  have hshape := shape_of_recorded hlog hreadings hnone
  rw [List.append_nil] at hshape
  exact ⟨ls, _, hshape⟩

/-- After an expression was taken, the lexemes that were taken before the head are its lexemes. -/
theorem RecordedTo.derives {e : Expr} (h : RecordedTo text log s.expression.state)
    (hs : s.readings = Calculator.readings text) (he : s.expression.result = .ok e) :
    ∃ ls, log = passed ls ++ [.found s.expression.state.head] ∧
      Calculator.readings text = ls.map .ok ++ s.expression.state.readings ∧
      Derives .expression ls e := by
  obtain ⟨ls, hlog, hreadings⟩ := h
  obtain ⟨ls', hspells, hderives⟩ := spells_of_phrase ⟨he, rfl⟩
  have hls : ls = ls' := by
    rw [hs, hreadings] at hspells
    exact (List.map_inj_right fun _ _ => Except.ok.inj).mp (List.append_cancel_right hspells)
  exact ⟨ls, hlog, hreadings, hls ▸ hderives⟩

/-- **Taking heads keeps to the form of the record.** -/
theorem contract_record (text : String) :
    Contract (RecordedTo text) fun _ log _ => BrokenOff text log where
  take log s hs hend := by
    obtain ⟨ls, rfl, hreadings⟩ := hs
    have hx : s.cursor.exhausted = false := by
      simpa using mt s.exhausted_iff.mp hend
    have hfound : Event.found s.head = .lexed s.head := if_neg hend
    rw [readings_of_ne_end hend] at hreadings
    refine take_meetsAfter rfl (fun q hread => ⟨ls ++ [s.head], ?_, ?_⟩) fun e q hnext _ _ => ?_
    · rw [Cursor.log_next_of_ok hx hread.reading_eq, passed_concat, hfound]
      simp
    · rw [hread.readings_eq, hreadings]
      simp
    · refine ⟨ls ++ [s.head], none, ?_, ?_, by simp⟩
      · rw [Cursor.log_next_of_error hnext, passed_concat, hfound]
        simp
      · exact ⟨s.cursor.readings, by simp [hreadings]⟩
  no_factor _ _ hs _ _ := hs.brokenOff
  no_paren _ _ hs _ _ := hs.brokenOff

end TokenStream

/-! ### What comes after reading -/

variable {text : String} {strict : Bool}

/-- Evaluating an expression records applications only. -/
theorem stage_of_mem_log_evaluate {e : Expr} {d : Event} (h : d ∈ e.evaluate.log) :
    d.stage = .applying := by
  obtain ⟨-, hlog⟩ := StackMachine.run_postorder e []
  rw [← hlog] at h
  obtain ⟨a, -, rfl⟩ := List.mem_map.mp h
  rfl

/-- What is recorded about the value of an expression: the applications, and the value if there is
one. -/
def valuation (e : Expr) : List Event :=
  e.evaluate.log ++ match e.evaluate.result with
    | .ok value => [.evaluated value]
    | .error _ => []

/-- What is recorded when an expression is accepted is that something is left over, and that it is
accepted. -/
theorem stage_of_mem_acceptance {e : Expr} {l : Lexeme} {d : Event}
    (h : d ∈ acceptance strict e l) : d.stage = .leftover ∨ d.stage = .parsed := by
  rcases List.mem_append.mp h with hleft | hparsed
  · by_cases hend : l.token = .endOfInput
    · simp [hend] at hleft
    · simp only [hend, if_false, List.mem_singleton] at hleft
      exact .inl (hleft ▸ rfl)
  · rw [List.mem_singleton] at hparsed
    cases strict <;> exact .inr (hparsed ▸ rfl)

/-- What is recorded about the value of an expression is its applications, and its value. -/
theorem stage_of_mem_valuation {e : Expr} {d : Event} (h : d ∈ valuation e) :
    d.stage = .applying ∨ d.stage = .evaluated := by
  rcases List.mem_append.mp h with hlog | hvalue
  · exact .inl (stage_of_mem_log_evaluate hlog)
  · cases hresult : e.evaluate.result <;> simp only [hresult] at hvalue
    · simp at hvalue
    · exact .inr (List.mem_singleton.mp hvalue ▸ rfl)

theorem pairwise_acceptance (strict : Bool) (e : Expr) (l : Lexeme) :
    (acceptance strict e l).Pairwise fun c d => c.stage.rank ≤ d.stage.rank := by
  by_cases hend : l.token = .endOfInput <;> cases strict <;>
    simp [acceptance, hend, Event.stage, Stage.rank]

theorem pairwise_valuation (e : Expr) :
    (valuation e).Pairwise fun c d => c.stage.rank ≤ d.stage.rank := by
  have happlying : e.evaluate.log.Pairwise fun c d => c.stage.rank ≤ d.stage.rank :=
    List.pairwise_of_forall_mem_list fun c hc d hd => by
      rw [stage_of_mem_log_evaluate hc, stage_of_mem_log_evaluate hd]
  refine List.pairwise_append.mpr ⟨happlying, ?_, fun c hc d hd => ?_⟩
  · cases e.evaluate.result <;> simp
  · have hvalue : d ∈ valuation e := List.mem_append_right _ hd
    rcases stage_of_mem_valuation hvalue with hd | hd <;>
      simp [stage_of_mem_log_evaluate hc, hd, Stage.rank]

/-- What is recorded after reading, is recorded in the order of the stages. -/
theorem pairwise_others (strict : Bool) (e : Expr) (l : Lexeme) :
    (acceptance strict e l ++ valuation e).Pairwise fun c d => c.stage.rank ≤ d.stage.rank := by
  refine List.pairwise_append.mpr
    ⟨pairwise_acceptance strict e l, pairwise_valuation e, fun c hc d hd => ?_⟩
  rcases stage_of_mem_acceptance hc with hc | hc <;>
    rcases stage_of_mem_valuation hd with hd | hd <;> simp [hc, hd, Stage.rank]

theorem others_stage {e : Expr} {l : Lexeme} {d : Event}
    (h : d ∈ acceptance strict e l ++ valuation e) : d.stage ≠ .reading := by
  rcases List.mem_append.mp h with h | h
  · rcases stage_of_mem_acceptance h with hd | hd <;> simp [hd]
  · rcases stage_of_mem_valuation h with hd | hd <;> simp [hd]

/-- It is said once that an expression is accepted. -/
theorem filter_parsed (strict : Bool) (e : Expr) (l : Lexeme) :
    (acceptance strict e l ++ valuation e).filter (·.stage = .parsed) =
      [if strict then .parsedComplete e else .parsed e] := by
  have hvaluation : (valuation e).filter (·.stage = .parsed) = [] :=
    List.filter_eq_nil_iff.mpr fun d hd => by
      rcases stage_of_mem_valuation hd with hd | hd <;> simp [hd]
  rw [List.filter_append, hvaluation, List.append_nil]
  by_cases hend : l.token = .endOfInput <;> cases strict <;> simp [acceptance, hend, Event.stage]

/-- It is said that a lexeme is ignored, if it is left over. -/
theorem ignoredTrailing_mem_others {e : Expr} {l m : Lexeme} :
    .ignoredTrailing m ∈ acceptance strict e l ++ valuation e ↔ l = m ∧ l.token ≠ .endOfInput := by
  have hvaluation : .ignoredTrailing m ∉ valuation e := fun hmem => by
    rcases stage_of_mem_valuation hmem with h | h <;> simp [Event.stage] at h
  by_cases hend : l.token = .endOfInput <;> cases strict <;>
    simp [acceptance, hend, hvaluation, eq_comm]

/-! ### Evaluating a text -/

/-- A stream is made by reading once. -/
theorem TokenStream.log_ofCursor (c : Cursor) : (TokenStream.ofCursor c).log = c.next.log := by
  rw [ofCursor]
  split <;> next h => simp only [h]

/-- Nothing is recorded when the first word is misspelled. -/
theorem record_of_no_stream {err : LexError}
    (hs : (TokenStream.ofString text).result = .error err) : record text strict = [] := by
  have herror := congrArg (Except.mapError Error.lexical) hs
  have hnext := TokenStream.result_next_of_ofCursor_error hs
  rw [record, evaluateLogged, Logged.log_bind_of_error herror]
  exact (TokenStream.log_ofCursor _).trans (Cursor.log_next_of_error hnext)

/-- Otherwise it is first recorded that the head was read. -/
theorem record_of_stream {s : TokenStream} (hs : (TokenStream.ofString text).result = .ok s) :
    record text strict = [.found s.head] ++ (s.calculate strict).log := by
  have hok := congrArg (Except.mapError Error.lexical) hs
  have hread := TokenStream.readFrom_ofCursor hs
  rw [record, evaluateLogged, Logged.log_bind_of_ok hok]
  exact congrArg (· ++ _)
    ((TokenStream.log_ofCursor _).trans (Cursor.log_next_of_ok rfl hread.reading_eq))

/-- What is recorded about the value comes after what parsing records. -/
theorem log_calculate_of_ok {s : TokenStream} {e : Expr} (h : (s.parse strict).result = .ok e) :
    (s.calculate strict).log = (s.parse strict).log ++ valuation e := by
  rw [TokenStream.calculate, Outcome.andCompute, Outcome.andThen_of_ok h, valuation]
  refine congrArg ((s.parse strict).log ++ ·) ?_
  dsimp only
  cases hvalue : e.evaluate.result with
  | ok value =>
    rw [Logged.log_bind_of_ok (congrArg (Except.mapError Error.runtime) hvalue)]
    rfl
  | error cause =>
    rw [Logged.log_bind_of_error (congrArg (Except.mapError Error.runtime) hvalue),
      List.append_nil]
    rfl

theorem log_calculate_of_error {s : TokenStream} {err : Error}
    (h : (s.parse strict).result = .error err) :
    (s.calculate strict).log = (s.parse strict).log := by
  rw [TokenStream.calculate, Outcome.andCompute, Outcome.andThen_of_error h]

/-- **The record of an evaluation has the form of a record.** It breaks off where parsing fails, and
otherwise it is said that the expression is accepted, and how it is evaluated. -/
theorem exists_shape (text : String) (strict : Bool) :
    (∃ err, parse text strict = .error err ∧ TokenStream.BrokenOff text (record text strict)) ∨
      ∃ e ls l, parse text strict = .ok e ∧ Derives .expression ls e ∧
        (l.token = .endOfInput ∨ strict = false) ∧
        Shape text (record text strict) ls (some l)
          (acceptance strict e l ++ valuation e) := by
  cases hs : (TokenStream.ofString text).result with
  | error err =>
    refine .inl ⟨_, parse_of_no_stream hs strict, [], none, ?_, ?_, ?_⟩
    · rw [record_of_no_stream hs]
      rfl
    · exact List.nil_prefix
    · simp
  | ok s =>
    have hstart : TokenStream.RecordedTo text [.found s.head] s :=
      ⟨[], rfl, (TokenStream.readings_ofCursor hs).symm⟩
    have hmeets :=
      TokenStream.phrase_meetsAfter (TokenStream.contract_record text) .expression hstart
    rw [record_of_stream hs]
    rcases s.parse_cases strict with
      ⟨err, hresult, hparse⟩ | ⟨e, hresult, hend, hparse⟩ | ⟨e, hresult, hparse⟩
    · have herr : (s.parse strict).result = .error err := by rw [hparse]
      refine .inl ⟨err, (parse_of_stream hs strict).trans herr, ?_⟩
      rw [log_calculate_of_error herr, hparse]
      exact hmeets.of_error hresult
    · have hok : (s.parse strict).result = .ok e := by rw [hparse]
      have hothers : ∀ d ∈ acceptance strict e s.expression.state.head ++ valuation e,
          d.stage ≠ .reading := fun _ => others_stage
      obtain ⟨ls, hlog, hreadings, hderives⟩ :=
        (hmeets.of_ok hresult).derives (TokenStream.readings_ofCursor hs) hresult
      have hshape := TokenStream.shape_of_recorded hlog hreadings hothers
      refine .inr ⟨e, ls, _, (parse_of_stream hs strict).trans hok, hderives, hend, ?_⟩
      rw [log_calculate_of_ok hok, hparse]
      simpa using hshape
    · obtain ⟨err, herr⟩ : ∃ err, (s.parse strict).result = .error err := ⟨_, by rw [hparse]⟩
      refine .inl ⟨err, (parse_of_stream hs strict).trans herr, ?_⟩
      rw [log_calculate_of_error herr, hparse]
      exact (hmeets.of_ok hresult).brokenOff

/-- A text whose expression is accepted fails to be evaluated at run time only. -/
theorem exists_runtime_of_parse {e : Expr} {err : Error} (hparse : parse text strict = .ok e)
    (h : evaluate text strict = .error err) : ∃ cause, err = .runtime cause := by
  rw [evaluate_eq_bind, hparse] at h
  cases hresult : e.evaluate.result with
  | ok value =>
    rw [Except.bind, hresult] at h
    cases h
  | error cause =>
    rw [Except.bind, hresult] at h
    exact ⟨cause, (Except.error.inj h).symm⟩

/-- **What happens when a text is evaluated, and in which order.** Lexemes are read and taken in the
order of the text, each is taken right after it was read, and one at most waits. When the end is met
none waits, and reading is over. Only then is an expression accepted, which is that of the lexemes
that were taken, and only then are operators applied; neither happens if the text is misspelled or
no expression. A lexeme is said to be ignored if something may follow the expression, and then it is
the one that was read last and waits. -/
theorem record_disciplined (text : String) (strict : Bool) :
    Disciplined text strict (record text strict) := by
  rcases exists_shape text strict with ⟨err, hparse, ls, head, hshape⟩ |
    ⟨e, ls, l, hparse, hderives, hend, hshape⟩
  · have hreading : ∀ d ∈ record text strict, d.stage = .reading := fun d hd =>
      (hshape.stage_of_mem hd).resolve_right (List.not_mem_nil)
    exact {
      toOneAhead := hshape.oneAhead
      lexed_isPrefix := hshape.lexed_isPrefix
      taken_derives e he := by cases hparse.symm.trans he
      in_stages := hshape.in_stages .nil
      parsed_eq := by
        rw [hparse, hshape.filter_stage (by simp)]
        rfl
      parsed_of_applying d hd happlying := by simp [hreading d hd] at happlying
      reading_of_error _ _ _ := hreading
      ignoredTrailing_iff m := by
        have hnot : .ignoredTrailing m ∉ record text strict := fun hmem => nomatch hreading _ hmem
        simp [hnot, hparse] }
  · have hacceptance : ∃ d ∈ acceptance strict e l, d.stage = .parsed := by
      cases strict <;> exact ⟨_, List.mem_append_right _ (List.mem_singleton_self _), rfl⟩
    exact {
      toOneAhead := hshape.oneAhead
      lexed_isPrefix := hshape.lexed_isPrefix
      taken_derives d hd := by
        cases hparse.symm.trans hd
        rwa [hshape.takenIn_eq]
      in_stages := hshape.in_stages (pairwise_others strict e l)
      parsed_eq := by rw [hparse, hshape.filter_stage (by simp), filter_parsed]
      parsed_of_applying d _ _ := by
        obtain ⟨p, hp, hparsed⟩ := hacceptance
        exact ⟨p, (hshape.mem_others (by simp [hparsed])).mpr (List.mem_append_left _ hp), hparsed⟩
      reading_of_error err herr hcause := by
        obtain ⟨cause, rfl⟩ := exists_runtime_of_parse hparse herr
        exact absurd rfl (hcause cause)
      ignoredTrailing_iff m := by
        rw [hshape.waits_iff, hshape.mem_others (by simp [Event.stage]), ignoredTrailing_mem_others]
        exact ⟨fun h => ⟨hend.resolve_left h.2, ⟨e, hparse⟩, h⟩, fun h => h.2.2⟩ }

/-- The parenthesis is read to see where the literal ends, and is not taken. -/
example : record "7 )" false =
    [.lexed ⟨.number ⟨7, by decide, by decide⟩, 0⟩, .taken ⟨.number ⟨7, by decide, by decide⟩, 0⟩,
      .lexed ⟨.rightParen, 2⟩, .ignoredTrailing ⟨.rightParen, 2⟩,
      .parsed (.literal ⟨7, by decide, by decide⟩ 0),
      .evaluated (.integer ⟨7, by decide, by decide⟩)] := by decide +kernel

end Calculator
