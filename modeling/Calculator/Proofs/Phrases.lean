import Calculator.Proofs.Readings

/-!
# What the grammar rules take

The rules call each other, and each call is either of a rule of a lower category in the same place
or made after a token was taken. `phrase_induction` says this once, and every property of the
rules below is proved through it. It has a case for a factor, one for a phrase of the category of an
operator (terms and expressions are made in the same way) and one for a chain, and none about how
the recursion comes to an end.

## Main definitions

* `Follows`: which tokens may stand after a finished phrase of a category.
* `TokenStream.Spells`, `TokenStream.Extends`: what the lexemes between two places of a stream make
  up, alone and after a tree that is there already.

## Main results

* `TokenStream.phrase_induction`: induction along the rules.
* `TokenStream.follows_of_phrase`: a rule does not stop before an operator that it could have taken.
* `TokenStream.spells_of_phrase`: what a rule takes derives the tree that it gives.
-/

namespace Calculator

theorem Token.kind_eq_rightParen_iff {t : Token} : t.kind = .rightParen ↔ t = .rightParen := by
  cases t <;> simp [Token.kind]

theorem Lexeme.eq_of_token {l : Lexeme} {t : Token} (h : l.token = t) : l = ⟨t, l.position⟩ := by
  rw [← h]

/-- After a finished phrase of a category there is no operator of that category or a lower one. -/
def Follows (c : Category) (t : Token) : Prop :=
  ∀ op, t.operator? = some op → c.rank < op.category.rank

theorem follows_factor (t : Token) : Follows .factor t := by
  intro op _
  cases op <;> decide

theorem follows_expression_iff {t : Token} : Follows .expression t ↔ t.operator? = none := by
  constructor
  · intro h
    cases hop : t.operator? with
    | none => rfl
    | some op => cases op <;> exact absurd (h _ hop) (by decide)
  · intro h op hop
    rw [h] at hop
    cases hop

theorem rank_category (op : Operator) : op.category.rank = op.operand.rank + 1 := by
  cases op <;> rfl

/-- An expression begins with a number or with a parenthesis. -/
theorem Derives.exists_head {c : Category} {ls : List Lexeme} {e : Expr} (h : Derives c ls e) :
    ∃ l rest, ls = l :: rest ∧ l.token.operator? = none ∧ l.token ≠ .endOfInput := by
  induction h with
  | number value p => exact ⟨_, _, rfl, rfl, nofun⟩
  | parens p q _ _ => exact ⟨_, _, rfl, rfl, nofun⟩
  | ofFactor _ ih | ofTerm _ ih => exact ih
  | operation op p _ _ ihleft _ =>
    obtain ⟨l, rest, rfl, hop, hend⟩ := ihleft
    exact ⟨l, _, rfl, hop, hend⟩

/-- The left operand of an operation that is not there yet. -/
theorem Derives.ofOperand {op : Operator} {ls : List Lexeme} {e : Expr}
    (h : Derives op.operand ls e) : Derives op.category ls e := by
  cases op with
  | add | sub => exact .ofTerm h
  | mul | div => exact .ofFactor h

namespace TokenStream

/-! ### The rules, by the head of the stream -/

theorem phrase_factor_of_number {s : TokenStream} {value : Integer}
    (h : s.head.token = .number value) :
    s.phrase .factor =
      (s.take .number).andThen fun _ q => .ok (.literal value s.head.position) q := by
  rw [phrase_factor, h]

theorem phrase_factor_of_leftParen {s : TokenStream} (h : s.head.token = .leftParen) :
    s.phrase .factor =
      (s.take .leftParen).andThen fun _ q =>
        (q.phrase .expression).andThen fun e r =>
          (r.take .rightParen).andThen fun _ t => .ok e t := by
  rw [phrase_factor, h]

theorem phrase_factor_of_other {s : TokenStream} (hnumber : ∀ value, s.head.token ≠ .number value)
    (hparen : s.head.token ≠ .leftParen) :
    s.phrase .factor =
      .error (.syntactic (.expectedFactor s.head.token.kind s.head.position)) s := by
  rw [phrase_factor]
  split
  · next value h => exact absurd h (hnumber value)
  · next h => exact absurd h hparen
  · rfl

/-- A phrase of the category of an operator begins with an operand, and goes on with a chain. -/
theorem phrase_category (op : Operator) (s : TokenStream) :
    s.phrase op.category = (s.phrase op.operand).andThen (chain op.category) := by
  cases op with
  | add | sub => exact phrase_expression s
  | mul | div => exact phrase_term s

theorem chain_of_operator {s : TokenStream} {op : Operator} (h : s.head.token = op.token)
    (left : Expr) :
    chain op.category left s =
      (s.take op.token.kind).andThen fun _ q =>
        (q.phrase op.operand).andThen fun right r =>
          chain op.category (.binary op left right s.head.position) r := by
  rw [chain_eq, Token.operator?_eq_some_iff.mpr h]
  simp only [if_true]

/-- Elsewhere a chain is at its end. -/
theorem chain_of_no_operator {c : Category} {s : TokenStream}
    (h : ∀ op : Operator, op.category = c → s.head.token ≠ op.token) (left : Expr) :
    chain c left s = .ok left s := by
  rw [chain_eq]
  split
  · next op hop =>
    rw [if_neg fun hc => h op hc (Token.operator?_eq_some_iff.mp hop)]
  · rfl

/-- Three ways in which a factor can begin. -/
theorem factor_cases (t : Token) :
    (∃ value, t = .number value) ∨ t = .leftParen ∨
      (∀ value, t ≠ .number value) ∧ t ≠ .leftParen := by
  cases t <;> simp

/-- A chain goes on with an operator of its category, or it is at its end. -/
theorem chain_cases (c : Category) (t : Token) :
    (∃ op : Operator, op.category = c ∧ t = op.token) ∨
      ∀ op : Operator, op.category = c → t ≠ op.token := by
  by_cases h : ∃ op : Operator, op.category = c ∧ t = op.token
  · exact .inl h
  · exact .inr fun op hc ht => h ⟨op, hc, ht⟩

/-! ### Induction along the rules -/

/-- **Induction along the rules.** A factor may contain an expression, once a token was taken; a
phrase of the category of an operator begins with an operand in the same place; a chain takes an
operator before anything else. -/
theorem phrase_induction {P Q : Category → TokenStream → Prop}
    (factor : ∀ s, (∀ q, q.remaining < s.remaining → P .expression q) → P .factor s)
    (operation : ∀ (op : Operator) s, P op.operand s →
      (∀ q, q.remaining < s.remaining → Q op.category q) → P op.category s)
    (chain : ∀ c s, (∀ d q, q.remaining < s.remaining → P d q) →
      (∀ q, q.remaining < s.remaining → Q c q) → Q c s) :
    (∀ c s, P c s) ∧ ∀ c s, Q c s := by
  have key : ∀ n s, s.remaining = n → (∀ c, P c s) ∧ ∀ c, Q c s := by
    intro n
    induction n using Nat.strongRecOn with
    | ind n ih =>
      rintro s rfl
      have hfactor : P .factor s := factor s fun q hq => (ih _ hq q rfl).1 .expression
      -- Each category above the factors is that of some operator.
      have hterm : P .term s := operation .mul s hfactor fun q hq => (ih _ hq q rfl).2 .term
      have hexpr : P .expression s :=
        operation .add s hterm fun q hq => (ih _ hq q rfl).2 .expression
      refine ⟨fun c => ?_, fun c => ?_⟩
      · cases c with
        | factor => exact hfactor
        | term => exact hterm
        | expression => exact hexpr
      · exact chain c s (fun d q hq => (ih _ hq q rfl).1 d) fun q hq => (ih _ hq q rfl).2 c
  exact ⟨fun c s => (key _ s rfl).1 c, fun c s => (key _ s rfl).2 c⟩

variable {s q r : TokenStream} {c : Category} {e : Expr}

theorem readings_of_take {k : Token.Kind} (hk : k ≠ .endOfInput) {t : Token}
    (h : (s.take k).Yields t q) :
    s.head.token.kind = k ∧ s.readings = .ok s.head :: q.readings := by
  obtain ⟨hresult, rfl⟩ := h
  exact readings_take hk hresult

theorem remaining_lt_of_take {k : Token.Kind} (hk : k ≠ .endOfInput) {t : Token}
    (h : (s.take k).Yields t q) : q.remaining < s.remaining := by
  obtain ⟨hresult, rfl⟩ := h
  exact remaining_take_lt hk hresult

theorem remaining_lt_of_phrase (h : (s.phrase c).Yields e q) : q.remaining < s.remaining := by
  obtain ⟨hresult, rfl⟩ := h
  exact remaining_phrase_lt hresult

/-- **A rule does not stop before an operator that it could have taken.** -/
theorem follows_of_phrase (h : (s.phrase c).Yields e r) : Follows c r.head.token := by
  have key := phrase_induction
    (P := fun c s => ∀ e r, (s.phrase c).Yields e r → Follows c r.head.token)
    (Q := fun c s => ∀ left e r,
      (∀ op, s.head.token.operator? = some op → c.rank ≤ op.category.rank) →
        (chain c left s).Yields e r → Follows c r.head.token)
    ?_ ?_ ?_
  · exact key.1 c s e r h
  · intro s _ e r _
    exact follows_factor _
  · intro op s ihoperand ihchain e r he
    rw [phrase_category, Outcome.andThen_yields_iff] at he
    obtain ⟨left, q, hleft, hchain⟩ := he
    refine ihchain q (remaining_lt_of_phrase hleft) left e r ?_ hchain
    rw [rank_category]
    exact ihoperand left q hleft
  · intro c s ihphrase ihchain left e r hbelow he
    rcases chain_cases c s.head.token with ⟨op, rfl, hop⟩ | hno
    · simp only [chain_of_operator hop, Outcome.andThen_yields_iff] at he
      obtain ⟨t, q, htake, right, u, hright, he⟩ := he
      have hq := remaining_lt_of_take (kind_operator_ne op) htake
      refine ihchain u (Nat.lt_trans (remaining_lt_of_phrase hright) hq) _ e r ?_ he
      rw [rank_category]
      exact ihphrase op.operand q hq right u hright
    · rw [chain_of_no_operator hno, Outcome.ok_yields_iff] at he
      obtain ⟨rfl, rfl⟩ := he
      intro op hop
      refine Nat.lt_of_le_of_ne (hbelow op hop) fun hrank => ?_
      have hc : op.category = c := by
        revert hrank
        cases op <;> cases c <;> decide
      exact hno op hc (Token.operator?_eq_some_iff.mp hop)

/-- The lexemes of a phrase stand between two places of a stream. -/
def Spells (c : Category) (s : TokenStream) (e : Expr) (r : TokenStream) : Prop :=
  ∃ ls, s.readings = ls.map .ok ++ r.readings ∧ Derives c ls e

theorem spells_number {value : Integer} (hhead : s.head.token = .number value) {t : Token}
    (h : (s.take .number).Yields t q) : Spells .factor s (.literal value s.head.position) q := by
  obtain ⟨-, hs⟩ := readings_of_take (by decide) h
  refine ⟨[⟨.number value, s.head.position⟩], ?_, .number value _⟩
  rw [hs, ← Lexeme.eq_of_token hhead]
  rfl

theorem spells_parens (hhead : s.head.token = .leftParen) {t u : Token} {v : TokenStream}
    (hopen : (s.take .leftParen).Yields t q) (hinner : Spells .expression q e r)
    (hclose : (r.take .rightParen).Yields u v) : Spells .factor s e v := by
  obtain ⟨ls, hq, hderives⟩ := hinner
  obtain ⟨-, hs⟩ := readings_of_take (by decide) hopen
  obtain ⟨hkind, hr⟩ := readings_of_take (by decide) hclose
  refine ⟨_, ?_, .parens s.head.position r.head.position hderives⟩
  rw [hs, hq, hr, ← Lexeme.eq_of_token hhead,
    ← Lexeme.eq_of_token (Token.kind_eq_rightParen_iff.mp hkind)]
  simp

/-- The lexemes between two places of a stream, put after those of the tree `left`, make up a tree
of the same category. -/
def Extends (c : Category) (s : TokenStream) (left e : Expr) (r : TokenStream) : Prop :=
  ∃ ls, s.readings = ls.map .ok ++ r.readings ∧
    ∀ before, Derives c before left → Derives c (before ++ ls) e

theorem Spells.extend {d : Category} {left : Expr} (h : Spells d s left q)
    (hcategory : ∀ ls, Derives d ls left → Derives c ls left) (hchain : Extends c q left e r) :
    Spells c s e r := by
  obtain ⟨ls, hls, hderives⟩ := h
  obtain ⟨rs, hrs, hextend⟩ := hchain
  refine ⟨ls ++ rs, ?_, hextend ls (hcategory ls hderives)⟩
  rw [hls, hrs, List.map_append, List.append_assoc]

/-- One step of a chain: an operator, its right operand, and the rest of the chain. -/
theorem extends_operation {op : Operator} (hop : s.head.token = op.token) {left right : Expr}
    {t : Token} {u : TokenStream} (htake : (s.take op.token.kind).Yields t q)
    (hright : Spells op.operand q right u)
    (hchain : Extends op.category u (.binary op left right s.head.position) e r) :
    Extends op.category s left e r := by
  obtain ⟨-, hs⟩ := readings_of_take (kind_operator_ne op) htake
  obtain ⟨ls, hls, hderives⟩ := hright
  obtain ⟨rs, hrs, hextend⟩ := hchain
  refine ⟨s.head :: ls ++ rs, ?_, fun before hbefore => ?_⟩
  · rw [hs, hls, hrs]
    simp
  · have hleft := hextend _ (.operation op s.head.position hbefore hderives)
    rw [List.append_assoc] at hleft
    rwa [Lexeme.eq_of_token hop]

/-- **What a rule takes derives the tree that it gives.** -/
theorem spells_of_phrase (h : (s.phrase c).Yields e r) : Spells c s e r := by
  have key := phrase_induction
    (P := fun c s => ∀ e r, (s.phrase c).Yields e r → Spells c s e r)
    (Q := fun c s => ∀ left e r, (chain c left s).Yields e r → Extends c s left e r)
    ?_ ?_ ?_
  · exact key.1 c s e r h
  · intro s ih e r he
    rcases factor_cases s.head.token with ⟨value, hhead⟩ | hhead | ⟨hnumber, hparen⟩
    · simp only [phrase_factor_of_number hhead, Outcome.andThen_yields_iff,
        Outcome.ok_yields_iff] at he
      obtain ⟨t, q, htake, rfl, rfl⟩ := he
      exact spells_number hhead htake
    · simp only [phrase_factor_of_leftParen hhead, Outcome.andThen_yields_iff,
        Outcome.ok_yields_iff] at he
      obtain ⟨t, q, hopen, inner, v, hinner, u, w, hclose, rfl, rfl⟩ := he
      exact spells_parens hhead hopen
        (ih q (remaining_lt_of_take (by decide) hopen) inner v hinner) hclose
    · rw [phrase_factor_of_other hnumber hparen] at he
      exact absurd he Outcome.not_error_yields
  · intro op s ihoperand ihchain e r he
    rw [phrase_category, Outcome.andThen_yields_iff] at he
    obtain ⟨left, q, hleft, hchain⟩ := he
    exact (ihoperand left q hleft).extend (fun _ => .ofOperand)
      (ihchain q (remaining_lt_of_phrase hleft) left e r hchain)
  · intro c s ihphrase ihchain left e r he
    rcases chain_cases c s.head.token with ⟨op, rfl, hop⟩ | hno
    · simp only [chain_of_operator hop, Outcome.andThen_yields_iff] at he
      obtain ⟨t, q, htake, right, u, hright, he⟩ := he
      have hq := remaining_lt_of_take (kind_operator_ne op) htake
      have hu := Nat.lt_trans (remaining_lt_of_phrase hright) hq
      exact extends_operation hop htake (ihphrase op.operand q hq right u hright)
        (ihchain u hu _ e r he)
    · rw [chain_of_no_operator hno, Outcome.ok_yields_iff] at he
      obtain ⟨rfl, rfl⟩ := he
      exact ⟨[], rfl, fun before hbefore => by rwa [List.append_nil]⟩

end TokenStream

end Calculator
