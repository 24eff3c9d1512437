import Calculator.Proofs.Lexing
import Calculator.Proofs.Pushdown

/-!
# Writing an expression and parsing the text

The text of an expression has parentheses around every operation, so that nothing about precedence
is left to the reader, and it is parsed to the expression again. Two things keep this from being an
identity. The positions in an expression need not have to do with its text, while those of the
expression that is parsed are places of that text; `Expr.written` puts them there. And a tree may
hold negative literals although the language has none: such a text is refused, at the sign of the
first of them.

Both are one statement about the pushdown machine, in which the text of a subtree is read at any
offset and in any frame. The text of a subtree then is a run that ends with the subtree in the
frame, or that stops.

## Main definitions

* `Expr.written`: the expression with the positions of its own text.
* `Expr.firstNegative?`: the position of the first negative literal.

## Main results

* `wordsAt_render_binary`, `wordsAt_render_literal`: the words of the text of an expression.
* `Pushdown.advance_render`: the machine on the text of a subtree.
* `parse_render`: what parsing the text of an expression gives.
-/

namespace Calculator

/-! ### Literals -/

namespace Integer

theorem toList_render_of_nonneg {n : Integer} (h : 0 ≤ n.toInt) :
    n.render.toList = Nat.toDigits 10 n.toInt.toNat := by
  rw [render, Int.toString_eq_repr, Int.repr_eq_if, if_pos h, Nat.toList_repr]

theorem toList_render_of_neg {n : Integer} (h : n.toInt < 0) :
    n.render.toList = '-' :: Nat.toDigits 10 (-n.toInt).toNat := by
  rw [render, Int.toString_eq_repr, Int.repr_eq_if, if_neg (by omega), String.toList_append,
    Nat.toList_repr]
  rfl

end Integer

theorem ofDigits_toDigits {n : Integer} (h : 0 ≤ n.toInt) (p : Nat) :
    Token.ofDigits (Nat.toDigits 10 n.toInt.toNat) p = .ok (.number n) := by
  refine Token.ofDigits_eq_ok_iff.mpr ⟨n, rfl, ?_⟩
  rw [Nat.ofDigitChars_ten_toDigits, Int.toNat_of_nonneg h]

/-- A literal that is not negative is one word. -/
theorem wordsAt_render_literal {n : Integer} (h : 0 ≤ n.toInt) (p : Nat) :
    wordsAt p n.render.toList = [.ok ⟨.number n, p⟩] := by
  rw [Integer.toList_render_of_nonneg h, wordsAt_digits Nat.toDigits_ne_nil
    (fun c hc => Nat.isDigit_of_mem_toDigits (by decide) (by decide) hc), ofDigits_toDigits h]
  rfl

/-- The text of a negative literal begins with a sign. -/
theorem wordsAt_render_negative {n : Integer} (h : n.toInt < 0) (p : Nat) :
    ∃ rs, wordsAt p n.render.toList = .ok ⟨.minus, p⟩ :: rs := by
  rw [Integer.toList_render_of_neg h]
  exact ⟨_, wordsAt_sign rfl p _⟩

/-! ### Operations -/

theorem ofSign?_symbol (op : Operator) : Token.ofSign? op.symbol = some op.token := by
  cases op <;> rfl

theorem Operator.utf8Size_symbol (op : Operator) : op.symbol.utf8Size = 1 := by
  cases op <;> rfl

theorem toList_render_binary (op : Operator) (left right : Expr) (p : Nat) :
    (Expr.binary op left right p).render.toList =
      '(' :: (left.render.toList ++
        ' ' :: op.symbol :: ' ' :: (right.render.toList ++ [')'])) := by
  simp [Expr.render, String.toList_append]

/-- The words of an operation: a parenthesis, the left operand, the operator, the right operand and
a parenthesis. -/
theorem wordsAt_render_binary (op : Operator) (left right : Expr) (p q : Nat) :
    wordsAt p (Expr.binary op left right q).render.toList =
      .ok ⟨.leftParen, p⟩ :: (wordsAt (p + 1) left.render.toList ++
        .ok ⟨op.token, p + left.render.utf8ByteSize + 2⟩ ::
          (wordsAt (p + left.render.utf8ByteSize + 4) right.render.toList ++
            [.ok ⟨.rightParen,
              p + left.render.utf8ByteSize + 4 + right.render.utf8ByteSize⟩])) := by
  have hblank : ' '.utf8Size = 1 := rfl
  have hop : p + 1 + left.render.utf8ByteSize + 1 = p + left.render.utf8ByteSize + 2 := by omega
  have hright : p + left.render.utf8ByteSize + 2 + 1 + 1 = p + left.render.utf8ByteSize + 4 := by
    omega
  rw [toList_render_binary, wordsAt_sign rfl, wordsAt_append (separate_cons (by decide) _ _),
    wordsAt_of_blank (by decide), byteLength_toList, hblank, hop,
    wordsAt_sign (ofSign?_symbol op), wordsAt_of_blank (by decide), hblank, hright,
    wordsAt_append (separate_cons (by decide) _ _), wordsAt_sign rfl, wordsAt_nil,
    byteLength_toList]

/-! ### The tree of a text -/

namespace Expr

/-- The expression with the positions of its own text, which begins at `p`: a literal stands where
its text begins, an operator after the opening parenthesis, the left operand and a blank. -/
def written : Expr → Nat → Expr
  | .literal value _, p => .literal value p
  | .binary op left right _, p =>
    .binary op (left.written (p + 1)) (right.written (p + left.render.utf8ByteSize + 4))
      (p + left.render.utf8ByteSize + 2)

/-- The literals with their positions, from left to right. -/
def literals : Expr → List (Integer × Nat)
  | .literal value p => [(value, p)]
  | .binary _ left right _ => left.literals ++ right.literals

/-- The position of the first negative literal. -/
def firstNegative? (e : Expr) : Option Nat :=
  (e.literals.find? fun l => l.1.toInt < 0).map Prod.snd

theorem firstNegative?_literal (value : Integer) (p : Nat) :
    (literal value p).firstNegative? = if value.toInt < 0 then some p else none := by
  rw [firstNegative?, literals, List.find?_singleton]
  by_cases h : value.toInt < 0
  · rw [if_pos h, if_pos (decide_eq_true h)]
    rfl
  · rw [if_neg h, if_neg (by rw [decide_eq_false h]; decide)]
    rfl

theorem firstNegative?_binary (op : Operator) (left right : Expr) (p : Nat) :
    (binary op left right p).firstNegative? =
      left.firstNegative?.or right.firstNegative? := by
  rw [firstNegative?, literals, List.find?_append, Option.map_or]
  rfl

end Expr

namespace Pushdown

/-- An operator whose left operand is alone in its parentheses gets its right operand. -/
theorem complete_after (left right : Expr) (op : Operator) (p : Nat) :
    Pending.complete (Frame.after none left op p).sum
        (Pending.complete (Frame.after none left op p).product right) =
      .binary op left right p := by
  cases op <;> rfl

/-- **The machine on the text of a subtree.** Whatever frame the text is read in, in the end the
subtree is in it; or the machine has stopped at the first negative literal. -/
theorem advance_render (e : Expr) (strict : Bool) (p : Nat) (frame : Frame) (outer : List Frame) :
    advance (move strict) (.expecting frame outer) (wordsAt p e.render.toList) =
      match (e.written p).firstNegative? with
      | none => .go (afterFactor (e.written p) frame outer)
      | some q => .stop (.error (.syntactic (.expectedFactor .minus q))) := by
  induction e generalizing p frame outer with
  | literal value q =>
    rw [Expr.render, Expr.written, Expr.firstNegative?_literal]
    by_cases h : value.toInt < 0
    · obtain ⟨rs, hrs⟩ := wordsAt_render_negative h p
      rw [hrs, if_pos h]
      exact advance_of_stop (move_expecting_other (fun _ => by simp) (by simp)) rs
    · rw [wordsAt_render_literal (Int.not_lt.mp h), if_neg h]
      exact advance_of_go (move_number rfl) []
  | binary op left right q ihleft ihright =>
    rw [wordsAt_render_binary, advance_of_go (move_leftParen rfl), advance_append, ihleft,
      Expr.written, Expr.firstNegative?_binary]
    cases (left.written (p + 1)).firstNegative? with
    | some r => rfl
    | none =>
      simp only [Option.none_or, afterFactor, Frame.empty, Pending.complete]
      rw [advance_of_go (move_operator rfl), advance_append, ihright]
      cases (right.written (p + left.render.utf8ByteSize + 4)).firstNegative? with
      | some r => rfl
      | none =>
        refine (advance_of_go (move_rightParen rfl) []).trans ?_
        rw [advance_nil, complete_after]
        rfl

end Pushdown

/-! ### Whole texts -/

namespace Expr

/-- What the text of an expression has for a node, its operands left out. -/
def Node.text : Node → List Char
  | .literal value _ => value.render.toList
  | .operation op _ => [op.symbol]

def Node.position : Node → Nat
  | .literal _ p | .operation _ p => p

/-- Writing an expression changes its positions only. -/
theorem mapPosition_written (e : Expr) (p q : Nat) :
    (e.written p).mapPosition (fun _ => q) = e.mapPosition fun _ => q := by
  induction e generalizing p with
  | literal value r => rfl
  | binary op left right r ihleft ihright =>
    rw [written, mapPosition, mapPosition, ihleft, ihright]

/-- The positions of the expression that was written are the places of its nodes in the text. -/
theorem exists_text_of_mem_written {e : Expr} {p : Nat} {node : Node}
    (h : node ∈ (e.written p).postorder) :
    ∃ before after, e.render.toList = before ++ node.text ++ after ∧
      p + byteLength before = node.position := by
  induction e generalizing p with
  | literal value q =>
    obtain rfl := List.mem_singleton.mp h
    exact ⟨[], [], by simp [render, Node.text], rfl⟩
  | binary op left right q ihleft ihright =>
    have hblank : ' '.utf8Size = 1 := rfl
    have hparen : '('.utf8Size = 1 := rfl
    have hop : op.symbol.utf8Size = 1 := op.utf8Size_symbol
    rw [toList_render_binary]
    rw [written, postorder, List.mem_append, List.mem_append, List.mem_singleton] at h
    rcases h with (h | h) | rfl
    · obtain ⟨before, after, htext, hposition⟩ := ihleft h
      refine ⟨'(' :: before, after ++ ' ' :: op.symbol :: ' ' :: (right.render.toList ++ [')']),
        ?_, ?_⟩
      · rw [htext]
        simp
      · rw [byteLength_cons, ← hposition]
        omega
    · obtain ⟨before, after, htext, hposition⟩ := ihright h
      refine ⟨'(' :: (left.render.toList ++ ' ' :: op.symbol :: ' ' :: before), after ++ [')'],
        ?_, ?_⟩
      · rw [htext]
        simp
      · simp only [byteLength_cons, byteLength_append, byteLength_toList, ← hposition]
        omega
    · refine ⟨'(' :: (left.render.toList ++ [' ']), ' ' :: (right.render.toList ++ [')']), ?_, ?_⟩
      · simp [Node.text]
      · simp only [byteLength_cons, byteLength_append, byteLength_nil, byteLength_toList,
          Node.position]
        omega

end Expr

/-- **Writing an expression and parsing the text**, strictly or not. If no literal is negative this
gives the expression that was written, each node at the place where the text has it. Otherwise the
text is refused at the first negative literal. -/
theorem parse_render (e : Expr) (strict : Bool) :
    (parse e.render strict =
      match (e.written 0).firstNegative? with
      | none => .ok (e.written 0)
      | some p => .error (.syntactic (.expectedFactor .minus p))) ∧
    (e.written 0).mapPosition (fun _ => 0) = e.mapPosition (fun _ => 0) ∧
    ∀ node ∈ (e.written 0).postorder, ∃ before after,
      e.render.toList = before ++ node.text ++ after ∧ byteLength before = node.position := by
  refine ⟨?_, e.mapPosition_written 0 0, fun node hnode => ?_⟩
  · have hrun := Pushdown.advance_readings e.render strict
    rw [readings_eq, advance_append, Pushdown.start, Pushdown.advance_render] at hrun
    cases hfirst : (e.written 0).firstNegative? with
    | none =>
      rw [hfirst] at hrun
      exact (Move.stop.inj hrun).symm
    | some p =>
      rw [hfirst] at hrun
      exact (Move.stop.inj hrun).symm
  · have h := Expr.exists_text_of_mem_written hnode
    simpa only [Nat.zero_add] using h

end Calculator
