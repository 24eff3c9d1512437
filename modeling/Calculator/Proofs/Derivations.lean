import Calculator.Proofs.Pushdown

/-!
# The parser and the grammar

A text is accepted when its readings begin with lexemes that derive a tree, and the lexeme after
them is one at which a parser may leave off. That the parser gives no other tree is a property of
its rules and was proved along them, in `spells_of_phrase`. That it gives this one is proved here,
along the derivation, for the pushdown machine: whatever waits around a phrase is still waiting
when the lexemes of the phrase have been read, and only the tree of the phrase has been added.

The grammar is left recursive and the machine is not, which causes no trouble. The derivation of an
operation first derives its left operand, and this leaves the machine in just the state in which it
can take the operator.

## Main definitions

* `Pushdown.After`: the states of the machine after a phrase.
* `BeginsWith`: the readings begin with an expression.

## Main results

* `Pushdown.advance_derives`: the machine reads the lexemes of a derivation.
* `parse_of_derives`: what parsing gives when the readings begin with an expression.
* `parse_eq_ok_iff_derives`: the parser accepts exactly the grammar, with the right tree.
-/

namespace Calculator

namespace Pushdown

/-- The state after a phrase that was read in a frame. A sum in an expression is completed only
when it is known that no factor is added to its right operand. -/
def After (frame : Frame) (outer : List Frame) : Category → Expr → Pushdown → Prop
  | .expression, e, x => ∃ term sum, x = .seen term sum outer ∧ Pending.complete sum term = e
  | _, e, x => x = afterFactor e frame outer

/-- After the left operand of an operator the machine can take the operator, and then the right
operand gives the operation. -/
theorem After.exists_seen {op : Operator} {left : Expr} {x : Pushdown} {frame : Frame}
    {outer : List Frame} (hfits : Fits op.category frame)
    (h : After frame outer op.category left x) :
    ∃ term sum, x = .seen term sum outer ∧ ∀ right p,
      After frame outer op.category (.binary op left right p)
        (afterFactor right (.after sum term op p) outer) := by
  cases op
  case mul | div =>
    have hproduct : frame.product = none := hfits
    refine ⟨left, frame.sum, ?_, fun right p => ?_⟩
    · rw [h, afterFactor, hproduct, Pending.complete]
    · rw [After, afterFactor, afterFactor, hproduct]
      · rfl
      · intro hcategory
        cases hcategory
  all_goals
    obtain ⟨term, sum, rfl, rfl⟩ := h
    exact ⟨term, sum, rfl, fun right p => ⟨right, _, rfl, rfl⟩⟩

/-- A right operand is a term or a factor, so that the frame has it as it has a factor. -/
theorem After.eq_afterFactor {op : Operator} {right : Expr} {x : Pushdown} {frame : Frame}
    {outer : List Frame} (h : After frame outer op.operand right x) :
    x = afterFactor right frame outer := by
  cases op <;> exact h

/-- **The machine reads the lexemes of a derivation**, and the tree is what it has then. -/
theorem advance_derives {c : Category} {ls : List Lexeme} {e : Expr} (h : Derives c ls e)
    (strict : Bool) (frame : Frame) (outer : List Frame) (hfits : Fits c frame) :
    ∃ x, advance (move strict) (.expecting frame outer) (ls.map .ok) = .go x ∧
      After frame outer c e x := by
  induction h generalizing frame outer with
  | number value p => exact ⟨_, advance_of_go (move_number rfl) [], rfl⟩
  | @parens ls e p q _ ih =>
    obtain ⟨_, hinner, term, sum, rfl, rfl⟩ := ih .empty (frame :: outer) rfl
    refine ⟨afterFactor (Pending.complete sum term) frame outer, ?_, rfl⟩
    rw [List.map_append, List.map_cons, List.cons_append, advance_of_go (move_leftParen rfl),
      advance_append, hinner]
    exact advance_of_go (move_rightParen rfl) []
  | ofFactor _ ih =>
    obtain ⟨x, hx, hafter⟩ := ih frame outer trivial
    exact ⟨x, hx, hafter⟩
  | ofTerm _ ih =>
    obtain rfl : frame = .empty := hfits
    obtain ⟨_, hx, rfl⟩ := ih .empty outer rfl
    exact ⟨_, hx, _, none, rfl, rfl⟩
  | @operation ls rs left right op p _ _ ihleft ihright =>
    obtain ⟨_, hleft, hx⟩ := ihleft frame outer hfits
    obtain ⟨term, sum, rfl, hoperation⟩ := hx.exists_seen hfits
    obtain ⟨_, hright, hy⟩ := ihright _ outer (fits_after sum term op p)
    obtain rfl := hy.eq_afterFactor
    refine ⟨_, ?_, hoperation right p⟩
    rw [List.map_append, List.map_cons, advance_append, hleft]
    exact (advance_of_go (move_operator rfl) _).trans hright

end Pushdown

/-- The readings begin with lexemes that derive the tree `e`, and after them comes `next`. -/
def BeginsWith (rs : List Reading) (e : Expr) (next : Lexeme) : Prop :=
  ∃ ls rest, rs = ls.map .ok ++ .ok next :: rest ∧ Derives .expression ls e

/-- The machine stops behind an expression, whatever comes after the lexeme that is read there. -/
theorem Pushdown.advance_expression {ls : List Lexeme} {e : Expr} (h : Derives .expression ls e)
    {next : Lexeme} (hnext : next.token.operator? = none) (strict : Bool) (rest : List Reading) :
    advance (move strict) start (ls.map .ok ++ .ok next :: rest) =
      .stop (ending strict e next) := by
  obtain ⟨_, hx, term, sum, rfl, rfl⟩ := advance_derives h strict .empty [] rfl
  rw [advance_append, start, hx]
  exact advance_of_stop (move_outside hnext) rest

/-- What parsing gives when the readings begin with an expression. -/
theorem parse_of_derives {text : String} {e : Expr} {next : Lexeme}
    (h : BeginsWith (readings text) e next) (hnext : next.token.operator? = none)
    (strict : Bool) : parse text strict = Pushdown.ending strict e next := by
  obtain ⟨ls, rest, hreadings, hderives⟩ := h
  have hrun := Pushdown.advance_readings text strict
  rw [hreadings, Pushdown.advance_expression hderives hnext] at hrun
  exact (Move.stop.inj hrun).symm

/-- A text whose first expression can be taken begins with it, and the rule has left off where it
may. -/
theorem beginsWith_of_expression {text : String} {s : TokenStream} {e : Expr}
    (hs : (TokenStream.ofString text).result = .ok s) (h : s.expression.result = .ok e) :
    BeginsWith (readings text) e s.expression.state.head ∧
      s.expression.state.head.token.operator? = none := by
  obtain ⟨ls, hls, hderives⟩ := TokenStream.spells_of_phrase ⟨h, rfl⟩
  have hfollows := TokenStream.follows_of_phrase ⟨h, rfl⟩
  have hreadings : readings text = ls.map .ok ++ s.expression.state.readings :=
    (TokenStream.readings_ofCursor hs).symm.trans hls
  exact ⟨⟨ls, _, hreadings, hderives⟩, follows_expression_iff.mp hfollows⟩

/-- A text that is parsed begins with an expression, and the parser has left off where it may. -/
theorem beginsWith_of_parse {text : String} {strict : Bool} {e : Expr}
    (h : parse text strict = .ok e) :
    ∃ next, BeginsWith (readings text) e next ∧ next.token.operator? = none ∧
      Pushdown.ending strict e next = .ok e := by
  obtain ⟨s, hs, hparse⟩ := exists_stream_of_parse h
  rw [Pushdown.result_parse, bind_eq_ok_iff] at hparse
  obtain ⟨d, hd, hending⟩ := hparse
  obtain rfl := Pushdown.eq_of_ending_eq_ok hending
  obtain ⟨hbegins, hop⟩ := beginsWith_of_expression hs hd
  exact ⟨_, hbegins, hop, hending⟩

theorem operator?_eq_none_iff {t : Token} :
    t.operator? = none ↔ t ∉ [Token.plus, .minus, .star, .slash] := by
  cases t <;> simp [Token.operator?]

/-- **The parser accepts exactly the grammar, with the right tree.** Leniently, an expression may
be followed by any lexeme but an operator; strictly, by the end only. In neither case is there a
second expression that the same text begins with. -/
theorem parse_eq_ok_iff_derives (text : String) :
    (∀ e, parse text false = .ok e ↔ ∃ next, BeginsWith (readings text) e next ∧
      next.token ∉ [Token.plus, .minus, .star, .slash]) ∧
    (∀ e, parse text true = .ok e ↔ ∃ next, BeginsWith (readings text) e next ∧
      next.token = .endOfInput) ∧
    ∀ d e m n, BeginsWith (readings text) d m → m.token ∉ [Token.plus, .minus, .star, .slash] →
      BeginsWith (readings text) e n → n.token ∉ [Token.plus, .minus, .star, .slash] → d = e := by
  have hlenient : ∀ e next, BeginsWith (readings text) e next →
      next.token ∉ [Token.plus, .minus, .star, .slash] → parse text false = .ok e := by
    intro e next hbegins hnext
    rw [parse_of_derives hbegins (operator?_eq_none_iff.mpr hnext)]
    exact if_pos (.inr rfl)
  refine ⟨fun e => ⟨fun h => ?_, ?_⟩, fun e => ⟨fun h => ?_, ?_⟩, ?_⟩
  · obtain ⟨next, hbegins, hnext, -⟩ := beginsWith_of_parse h
    exact ⟨next, hbegins, operator?_eq_none_iff.mp hnext⟩
  · rintro ⟨next, hbegins, hnext⟩
    exact hlenient e next hbegins hnext
  · obtain ⟨next, hbegins, -, hending⟩ := beginsWith_of_parse h
    exact ⟨next, hbegins, Pushdown.token_eq_of_ending hending⟩
  · rintro ⟨next, hbegins, hnext⟩
    rw [parse_of_derives hbegins (by rw [hnext]; rfl)]
    exact if_pos (.inl hnext)
  · intro d e m n hd hm he hn
    exact Except.ok.inj ((hlenient d m hd hm).symm.trans (hlenient e n he hn))

end Calculator
