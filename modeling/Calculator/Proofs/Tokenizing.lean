import Calculator.Proofs.Inorder
import Calculator.Proofs.ViablePrefix

/-!
# Tokenizing and parsing

There are two ways to go through a text. Tokenizing reads up to the end, or up to the first error of
spelling. Parsing reads as the grammar asks for tokens, one ahead, and it gives up as soon as one
cannot stand where it does. Both see the same readings, and so they cannot disagree about the
spelling: the first error of spelling is the only one that parsing can meet, and if parsing does not
meet it then only because something was wrong before it.

Strictly, parsing has gone through the whole text when it succeeds. The tokens are then those of the
nodes of the tree, with the parentheses between them.

## Main definitions

* `tokensOf`: the tokens of readings, or the first error among them.

## Main results

* `tokenize_eq`: tokenizing a text takes the tokens of its words.
* `tokenize_of_parse_lexical`: parsing meets no other error of spelling than tokenizing.
* `tokenize_of_parse`: tokenizing and parsing agree.
-/

namespace Calculator

/-- The tokens of readings, or the first error among them. -/
def tokensOf : List Reading → Except LexError (List Token)
  | [] => .ok []
  | .ok l :: rs => (tokensOf rs).map (l.token :: ·)
  | .error e :: _ => .error e

theorem tokensOf_map_ok (ls : List Lexeme) :
    tokensOf (ls.map .ok) = .ok (ls.map Lexeme.token) := by
  induction ls with
  | nil => rfl
  | cons l ls ih =>
    rw [List.map_cons, tokensOf, ih]
    rfl

/-- What comes after the first error does not matter. -/
theorem tokensOf_append_error (ls : List Lexeme) (e : LexError) (rest : List Reading) :
    tokensOf (ls.map .ok ++ .error e :: rest) = .error e := by
  induction ls with
  | nil => rfl
  | cons l ls ih =>
    rw [List.map_cons, List.cons_append, tokensOf, ih]
    rfl

/-- An error is the first one: there are only lexemes before it. -/
theorem exists_of_tokensOf_error {rs : List Reading} {e : LexError} (h : tokensOf rs = .error e) :
    ∃ (ls : List Lexeme) (rest : List Reading), rs = ls.map .ok ++ .error e :: rest := by
  induction rs with
  | nil => cases h
  | cons r rs ih =>
    cases r with
    | error d =>
      obtain rfl := Except.error.inj h
      exact ⟨[], rs, rfl⟩
    | ok l =>
      rw [tokensOf] at h
      cases hrs : tokensOf rs with
      | ok ts => rw [hrs] at h; cases h
      | error d =>
        rw [hrs] at h
        obtain rfl := Except.error.inj h
        obtain ⟨ls, rest, rfl⟩ := ih hrs
        exact ⟨l :: ls, rest, rfl⟩

/-! ### Reading to the end -/

theorem Cursor.readings_ne_nil (c : Cursor) : c.readings ≠ [] := by
  rw [readings]
  split <;> exact List.cons_ne_nil _ _

/-- **Reading all tokens** takes those of the readings before the last, which is the end. -/
theorem Cursor.result_tokens (c : Cursor) : c.tokens.result = tokensOf c.readings.dropLast := by
  fun_induction Cursor.tokens c with
  | case1 c e log after h =>
    rw [readings_of_error (by rw [h]), List.dropLast_cons_of_ne_nil (readings_ne_nil _)]
    rfl
  | case2 c log after h =>
    have hend : c.next.state.exhausted = true := c.exhausted_next_iff.mpr (by rw [h])
    rw [readings_of_exhausted_next hend]
    rfl
  | case3 c token log after h hend _ _ ih =>
    have hresult : c.next.result = .ok token := by rw [h]
    have hgoes : c.next.state.exhausted ≠ true := by
      rw [Ne, c.exhausted_next_iff, hresult]
      exact fun heq => hend (Except.ok.inj heq)
    have hstate : c.next.state = after := by rw [h]
    rw [readings_of_not_exhausted_next hgoes, List.dropLast_cons_of_ne_nil (readings_ne_nil _),
      reading, hresult, hstate, Except.map, tokensOf, ← ih]

/-- **Tokenizing a text** takes the tokens of its words. -/
theorem tokenize_eq (text : String) : tokenize text = tokensOf (wordsAt 0 text.toList) := by
  have hreadings : (Cursor.ofString text).readings = _ := readings_eq text
  rw [tokenize, tokenizeLogged, Cursor.result_tokens, hreadings, List.dropLast_concat]

/-- An error of spelling that parsing meets is the one that tokenizing meets. -/
theorem tokenize_of_parse_lexical {text : String} {strict : Bool} {e : LexError}
    (h : parse text strict = .error (.lexical e)) : tokenize text = .error e := by
  obtain ⟨ls, r, rest, hreadings, ⟨d, rfl, hd⟩ | ⟨l, c, -, hc, -⟩⟩ :=
    exists_reading_of_parse_error h
  · obtain rfl := Error.lexical.inj hd
    rcases words_of_readings hreadings with ⟨-, hend⟩ | ⟨others, hwords⟩
    · cases hend
    · rw [tokenize_eq, hwords, tokensOf_append_error]
  · cases hc

/-- Where only lexemes have been read, every error is still to come. -/
theorem position_lt_of_error {text : String} {ls : List Lexeme} {l : Lexeme} {e : LexError}
    {rest : List Reading} (h : readings text = ls.map .ok ++ .ok l :: rest)
    (he : .error e ∈ readings text) : l.position < e.position := by
  have hsorted := pairwise_position_readings text
  rw [h] at hsorted he
  obtain ⟨-, hafter, -⟩ := List.pairwise_append.mp hsorted
  have hrest : .error e ∈ rest := by simpa using he
  exact (List.pairwise_cons.mp hafter).1 _ hrest

/-- **Tokenizing and parsing agree about the spelling.** An error of spelling that parsing meets,
strictly or not, is the error of tokenizing. When tokenizing fails then parsing strictly meets this
error, or an error in the order of the tokens before it. And when parsing strictly gives a tree then
tokenizing gives the tokens of its nodes from left to right, with parentheses between them. -/
theorem tokenize_of_parse (text : String) :
    (∀ strict e, parse text strict = .error (.lexical e) → tokenize text = .error e) ∧
    (∀ e, tokenize text = .error e → parse text true = .error (.lexical e) ∨
      ∃ c, parse text true = .error (.syntactic c) ∧ c.position < e.position) ∧
    ∀ e, parse text true = .ok e → ∃ ts, tokenize text = .ok ts ∧
      ts.filter (fun t => !t.isParenthesis) = e.inorder.map Expr.Node.token := by
  refine ⟨fun strict e h => tokenize_of_parse_lexical h, fun e h => ?_, fun e h => ?_⟩
  · have htokens := h
    rw [tokenize_eq] at htokens
    obtain ⟨ls, rest, hwords⟩ := exists_of_tokensOf_error htokens
    cases hparse : parse text true with
    | ok t =>
      obtain ⟨ls', hwords', -⟩ := words_of_parse hparse
      rw [tokenize_eq, hwords', tokensOf_map_ok] at h
      cases h
    | error d =>
      obtain ⟨ls', r, rest', hreadings, ⟨f, -, rfl⟩ | ⟨l, c, rfl, rfl, hposition, -⟩⟩ :=
        exists_reading_of_parse_error hparse
      · have hf := tokenize_of_parse_lexical hparse
        obtain rfl := Except.error.inj (h.symm.trans hf)
        exact .inl rfl
      · have hmem : .error e ∈ readings text := by simp [readings_eq, hwords]
        exact .inr ⟨c, rfl, hposition ▸ position_lt_of_error hreadings hmem⟩
  · obtain ⟨ls, hwords, hderives⟩ := words_of_parse h
    refine ⟨ls.map Lexeme.token, by rw [tokenize_eq, hwords, tokensOf_map_ok], ?_⟩
    rw [List.filter_map]
    have hnodes := congrArg (List.map Lexeme.token) hderives.filter_isParenthesis
    rw [List.map_map] at hnodes
    exact hnodes

/-- Parsing does not get to the character that belongs to no word. -/
example : error? (tokenize "1 2 $") = some (.invalidCharacter '$' 4) ∧
    error? (parse "1 2 $" true) = some (.syntactic (.trailingInput .number 2)) := by
  decide +kernel

end Calculator
