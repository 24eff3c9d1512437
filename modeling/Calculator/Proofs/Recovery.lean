import Calculator.Proofs.Conservation

/-!
# The stream after a failure

Whoever goes on with a stream after an error must know what the error left. The head tells: it is
always the last lexeme that was read, and what was read since then are misspelled words. After an
error in the order of the tokens it is the token that the error speaks of, since a rule refuses
nothing but the head. A misspelled word is found behind the head, so that the head stays, and the
cursor stands behind the word. An error in the arithmetic is found when an expression has been
taken, and leaves what taking it leaves.

That the head is the last lexeme is preserved by taking heads, and so by everything that can be
done. The errors are what a contract of the grammar rules says of failures.

## Main definitions

* `TokenStream.LastRead`: the head is the last lexeme that was read from a text.
* `TokenStream.Misspelled`: the cursor stands behind a misspelled word, which was read after the
  head.
* `TokenStream.Failed`: what is known of a stream after a failure.

## Main results

* `TokenStream.LastRead.afterAll`: whatever is done, the head is the last lexeme that was read.
* `TokenStream.contract_failed`: a rule that fails leaves what is known.
* `stream_after_failure`: what each kind of failure leaves, for the streams of a text.
-/

namespace Calculator

namespace TokenStream

variable {text : String} {s q : TokenStream} {e : LexError}

/-- The head is the last lexeme that was read from a text: what was read since then are misspelled
words. -/
structure LastRead (text : String) (s : TokenStream) : Prop where
  exists_readings_eq : ∃ (before : List Reading) (errors : List LexError) (after : List Reading),
    Calculator.readings text = before ++ .ok s.head :: (errors.map .error ++ after) ∧
      s.readings = .ok s.head :: after
  exists_stands : ∃ before, Cursor.Stands text.toList before s.cursor
  endsAtCursor : s.EndsAtCursor

/-- The cursor stands right behind a misspelled word, and between the head and this word there are
at most other misspelled words. -/
structure Misspelled (text : String) (e : LexError) (s : TokenStream) : Prop where
  exists_readings_eq : ∃ (before : List Reading) (errors : List LexError),
    Calculator.readings text =
      before ++ .ok s.head :: (errors.map .error ++ .error e :: s.cursor.readings)
  exists_hasRead : ∃ before word,
    Cursor.HasRead text.toList before word s.cursor ∧ Reads word e.position (.error e)

/-- What is known of a stream after a failure of reading or of a rule. -/
def Failed (text : String) : Error → TokenStream → Prop
  | .syntactic e, s => s.head.token.kind = e.found ∧ s.head.position = e.position
  | .lexical e, s => Misspelled text e s
  | .runtime _, _ => False

/-- The head is found before the misspelled word. -/
theorem Misspelled.position_lt (h : Misspelled text e s) : s.head.position < e.position := by
  obtain ⟨before, errors, hreadings⟩ := h.exists_readings_eq
  have hpairwise := pairwise_position_readings text
  rw [hreadings] at hpairwise
  have hhead := (List.pairwise_cons.mp (List.pairwise_append.mp hpairwise).2.1).1
  exact hhead (.error e) (by simp)

/-! ### Taking heads -/

/-- A stream that has just read its head. -/
theorem ReadFrom.lastRead {c : Cursor} (h : s.ReadFrom c)
    (hsuffix : c.readings <:+ Calculator.readings text)
    (hstands : ∃ before, Cursor.Stands text.toList before c) : LastRead text s where
  exists_readings_eq := by
    obtain ⟨before, hbefore⟩ := hsuffix
    rw [← h.readings_eq] at hbefore
    exact ⟨before, [], _, hbefore.symm, rfl⟩
  exists_stands := by
    obtain ⟨before, hbefore⟩ := hstands
    rw [h.cursor_eq]
    exact hbefore.next
  endsAtCursor := h.endsAtCursor

theorem lastRead_ofCursor {n : Nat}
    (hs : (ofCursor ((Cursor.ofString text).skip n)).result = .ok s) : LastRead text s :=
  (readFrom_ofCursor hs).lastRead (Cursor.readings_skip_suffix n _)
    (Cursor.exists_stands_skip text n)

/-- Taking the end of the input changes nothing. -/
theorem ReadFrom.eq_of_end (h : q.ReadFrom s.cursor) (hend : s.EndsAtCursor)
    (htoken : s.head.token = .endOfInput) : q = s := by
  have hnext := Cursor.next_of_exhausted (s.exhausted_iff.mpr htoken)
  have hcursor : q.cursor = s.cursor := by rw [h.cursor_eq, hnext]; rfl
  have hhead : q.head = s.head := by
    have hresult := h.result_next
    rw [hnext] at hresult
    have hposition : q.head.position = s.head.position := by
      rw [h.position_head, hcursor, hend htoken]
    rw [Lexeme.eq_of_token htoken, ← hposition]
    exact Lexeme.eq_of_token (Except.ok.inj hresult).symm
  cases q
  cases s
  dsimp only at hcursor hhead
  subst hcursor hhead
  rfl

/-- The head was taken and the next lexeme read. -/
theorem LastRead.next (h : LastRead text s) (htoken : s.head.token ≠ .endOfInput)
    (hread : q.ReadFrom s.cursor) : LastRead text q := by
  refine hread.lastRead ?_ h.exists_stands
  obtain ⟨before, errors, after, htext, hs⟩ := h.exists_readings_eq
  rw [readings_of_ne_end htoken] at hs
  obtain ⟨-, rfl⟩ := List.cons.inj hs
  exact ⟨before ++ .ok s.head :: errors.map .error, by simp [htext]⟩

/-- The word after the head was misspelled. -/
theorem LastRead.misspelled (h : LastRead text s) (hnext : s.cursor.next.result = .error e)
    (hcursor : q.cursor = s.cursor.next.state) (hhead : q.head = s.head) :
    Misspelled text e q where
  exists_readings_eq := by
    obtain ⟨before, errors, after, htext, hs⟩ := h.exists_readings_eq
    rw [readings_of_ne_end (head_ne_end_of_error hnext)] at hs
    obtain ⟨-, rfl⟩ := List.cons.inj hs
    refine ⟨before, errors, ?_⟩
    rw [hhead, hcursor, htext, Cursor.readings_of_error hnext]
  exists_hasRead := by
    obtain ⟨before, hstands⟩ := h.exists_stands
    obtain ⟨blanks, word, hread, hreads⟩ := hstands.exists_hasRead (by rw [hnext]; nofun)
    rw [hnext, ← Cursor.position_of_next_error hnext] at hreads
    rw [hcursor]
    exact ⟨_, word, hread, hreads⟩

/-- **Taking a head keeps the head the last lexeme that was read**, also where it fails. -/
theorem LastRead.take (h : LastRead text s) (k : Token.Kind) : LastRead text (s.take k).state := by
  have hends := endsAtCursor_take h.endsAtCursor k
  rcases s.take_cases k with ⟨-, htake⟩ | ⟨-, -, hread⟩ | ⟨-, e, hnext, -, hcursor, hhead⟩
  · rw [htake]
    exact h
  · by_cases htoken : s.head.token = .endOfInput
    · rw [hread.eq_of_end h.endsAtCursor htoken]
      exact h
    · exact h.next htoken hread
  · have htoken : (s.take k).state.head.token ≠ .endOfInput := by
      rw [hhead]
      exact head_ne_end_of_error hnext
    have hword := h.misspelled hnext hcursor hhead
    obtain ⟨before, errors, htext⟩ := hword.exists_readings_eq
    obtain ⟨_, _, hread, -⟩ := hword.exists_hasRead
    refine ⟨⟨before, errors ++ [e], _, ?_, readings_of_ne_end htoken⟩, ⟨_, hread.stands⟩, hends⟩
    simp [htext]

/-- Whatever is done, the head is the last lexeme that was read. -/
theorem LastRead.afterAll (h : LastRead text s) (ops : List Operation) :
    LastRead text (s.afterAll ops) :=
  afterAll_of_take (P := LastRead text) (fun _ k hs => hs.take k) ops h

/-! ### Failures -/

/-- **A rule that fails leaves what is known.** -/
theorem contract_failed (text : String) :
    Contract (fun _ => LastRead text) fun e _ => Failed text e where
  take _ _ hs hend := take_meetsAfter rfl (fun _ hread => hs.next hend hread)
    fun _ _ hnext hcursor hhead => hs.misspelled hnext hcursor hhead
  no_factor _ _ _ _ _ := ⟨rfl, rfl⟩
  no_paren _ _ _ _ _ := ⟨rfl, rfl⟩

/-- Not accepting an expression leaves what is known. -/
theorem LastRead.failed_parse (h : LastRead text s) {strict : Bool} {err : Error}
    (herr : (s.parse strict).result = .error err) : Failed text err (s.parse strict).state := by
  rcases s.parse_cases strict with ⟨_, hresult, hparse⟩ | ⟨_, -, -, hparse⟩ | ⟨_, -, hparse⟩ <;>
    rw [hparse] at herr ⊢ <;> cases herr
  · exact (phrase_meets (contract_failed text) .expression h).of_error hresult
  · exact ⟨rfl, rfl⟩

/-- **Every operation that fails leaves what is known**, unless it fails in the arithmetic. Then the
expression was accepted. -/
theorem LastRead.failed (h : LastRead text s) {op : Operation} {err : Error}
    (herr : s.output op = .error err) :
    Failed text err (s.after op) ∨
      ∃ cause d, err = .runtime cause ∧ op = .evaluateNext ∧ (s.parse false).result = .ok d := by
  cases op with
  | take k =>
    have hresult := map_eq_error_iff.mp herr
    left
    rcases s.take_cases k with ⟨-, htake⟩ | ⟨-, htake, -⟩ | ⟨-, e, hnext, htake, hcursor, hhead⟩
    · rw [htake] at hresult
      rw [after, htake, ← Except.error.inj hresult]
      exact ⟨rfl, rfl⟩
    · rw [htake] at hresult
      cases hresult
    · rw [htake] at hresult
      rw [← Except.error.inj hresult]
      exact h.misspelled hnext hcursor hhead
  | phrase c =>
    have hresult := map_eq_error_iff.mp herr
    exact .inl ((phrase_meets (contract_failed text) c h).of_error hresult)
  | parse strict => exact .inl (h.failed_parse (map_eq_error_iff.mp herr))
  | evaluateNext =>
    have hresult := map_eq_error_iff.mp herr
    rw [result_evaluateNext, bind_eq_error_iff] at hresult
    rcases hresult with hparse | ⟨d, hparse, hvalue⟩
    · left
      rw [after, state_evaluateNext, ← state_parse s false]
      exact h.failed_parse hparse
    · right
      cases hcause : d.evaluate.result with
      | ok value =>
        rw [hcause] at hvalue
        cases hvalue
      | error cause =>
        rw [hcause] at hvalue
        exact ⟨cause, d, (Except.error.inj hvalue).symm, rfl, hparse⟩

/-- A head is taken under its own kind, unless the next word is misspelled. -/
theorem take_own_kind (s : TokenStream) :
    ((s.take s.head.token.kind).result = .ok s.head.token ∧
      (s.take s.head.token.kind).state.ReadFrom s.cursor) ∨
    ∃ e, (s.take s.head.token.kind).result = .error (.lexical e) := by
  rcases s.take_cases s.head.token.kind with ⟨hne, -⟩ | ⟨-, htake⟩ | ⟨-, e, -, htake, -⟩
  · exact absurd rfl hne
  · exact .inl htake
  · exact .inr ⟨e, htake⟩

end TokenStream

/-- **What a failure leaves.** Let a stream be made at a place of a text that some readings lead to,
and let anything be done with it, errors passed over; then let an operation fail. If a token cannot
stand where it is, then it is the head, and it can be taken unless the next word is misspelled. If a
word is misspelled then the head is the last lexeme before it, and the cursor stands behind the
word. If an operator cannot be applied then the stream is left as after parsing. A head of another
kind than the one to be taken leaves the stream as it is. -/
theorem stream_after_failure {text : String} {n : Nat} {s q : TokenStream}
    (hs : (TokenStream.ofCursor ((Cursor.ofString text).skip n)).result = .ok s)
    {ops : List Operation} (hq : s.afterAll ops = q) :
    (∀ op e, q.output op = .error (.syntactic e) →
      (q.after op).head.token.kind = e.found ∧ (q.after op).head.position = e.position ∧
        ((((q.after op).take e.found).result = .ok (q.after op).head.token ∧
            ((q.after op).take e.found).state.ReadFrom (q.after op).cursor) ∨
          ∃ err, ((q.after op).take e.found).result = .error (.lexical err))) ∧
    (∀ op e, q.output op = .error (.lexical e) →
      (q.after op).head.position < e.position ∧ (q.after op).Misspelled text e) ∧
    (∀ op cause, q.output op = .error (.runtime cause) →
      op = .evaluateNext ∧ ∃ d, (q.parse false).Yields d (q.after op)) ∧
    ∀ k e, (q.take k).result = .error (.syntactic e) → (q.take k).state = q := by
  have hlast : TokenStream.LastRead text q := hq ▸ (TokenStream.lastRead_ofCursor hs).afterAll ops
  refine ⟨fun op e he => ?_, fun op e he => ?_, fun op cause he => ?_, fun k e he => ?_⟩
  · rcases hlast.failed he with ⟨hkind, hposition⟩ | ⟨cause, d, herr, -⟩
    · refine ⟨hkind, hposition, ?_⟩
      rw [← hkind]
      exact (q.after op).take_own_kind
    · cases herr
  · rcases hlast.failed he with hword | ⟨cause, d, herr, -⟩
    · exact ⟨hword.position_lt, hword⟩
    · cases herr
  · rcases hlast.failed he with hfalse | ⟨_, d, -, rfl, hparse⟩
    · exact hfalse.elim
    · refine ⟨rfl, d, hparse, ?_⟩
      rw [TokenStream.after, TokenStream.state_evaluateNext, TokenStream.state_parse]
  · rcases q.take_cases k with ⟨-, htake⟩ | ⟨-, htake, -⟩ | ⟨-, e', -, htake, -⟩
    · rw [htake]
      rfl
    · rw [htake] at he
      cases he
    · rw [htake] at he
      cases he

/-- The word after the first literal is misspelled, and so the literal stays at the head. Then an
expression cannot be taken, because a parenthesis is closed that was not opened. -/
theorem stream_after_failure_paren :
    ∃ s, (TokenStream.ofCursor ((Cursor.ofString "2 ? * )").skip 0)).result = .ok s ∧
      ((s.afterAll [.take .number]).after (.phrase .expression)).head.token.kind = .rightParen ∧
      ((s.afterAll [.take .number]).after (.phrase .expression)).head.position = 6 ∧
      (s.after (.take .number)).head.position < 2 ∧
      (s.after (.take .number)).Misspelled "2 ? * )" (.invalidCharacter '?' 2) := by
  obtain ⟨s, hs⟩ := exists_ok_of_isSome
    (x := (TokenStream.ofCursor ((Cursor.ofString "2 ? * )").skip 0)).result) (by decide +kernel)
  have hword : ((TokenStream.ofCursor ((Cursor.ofString "2 ? * )").skip 0)).result.toOption.bind
      fun s => error? (s.output (.take .number))) = some (.lexical (.invalidCharacter '?' 2)) := by
    decide +kernel
  have hparen : ((TokenStream.ofCursor ((Cursor.ofString "2 ? * )").skip 0)).result.toOption.bind
      fun s => error? ((s.afterAll [.take .number]).output (.phrase .expression))) =
      some (.syntactic (.expectedFactor .rightParen 6)) := by
    decide +kernel
  rw [hs] at hword hparen
  obtain ⟨-, hmisspelled, -, -⟩ := stream_after_failure hs (rfl : s.afterAll [] = s)
  obtain ⟨hlt, hmisspelled⟩ := hmisspelled _ _ (error_of_error? hword)
  obtain ⟨hsyntactic, -⟩ := stream_after_failure hs (rfl : s.afterAll [.take .number] = _)
  obtain ⟨hkind, hposition, -⟩ := hsyntactic _ _ (error_of_error? hparen)
  exact ⟨s, hs, hkind, hposition, hlt, hmisspelled⟩

end Calculator
