import Calculator.Proofs.Congruence
import Calculator.Proofs.ExactValue
import Calculator.Proofs.RoundTrip

/-!
# The nodes of a tree in the order of the text

Every node of a tree that was parsed is made from one token, and every token that was read for the
tree makes one node, parentheses apart. Reading a text goes from left to right, so that the nodes
come in the order in which an operator stands between its operands. This is neither the order in
which the parser makes them, nor that in which operations are applied.

That no token is lost and none is used twice is a property of the grammar: it is proved along
derivations, and the parser comes in because it accepts nothing else.

## Main definitions

* `Expr.inorder`: the nodes, each operation between its operands.
* `Expr.Node.token`, `Expr.Node.lexeme`: what a node was made from.
* `Token.isParenthesis`: the tokens that make no node.

## Main results

* `Derives.filter_isParenthesis`: the lexemes of a phrase without parentheses are its nodes.
* `inorder_sublist_readings`: the nodes of a tree are read one after the other.
* `pairwise_position_inorder`: each node stands before the next.
-/

namespace Calculator

/-- Parentheses make no node of a tree. -/
def Token.isParenthesis : Token → Bool
  | .leftParen | .rightParen => true
  | _ => false

theorem Token.isParenthesis_token (op : Operator) : op.token.isParenthesis = false := by
  cases op <;> rfl

namespace Expr

/-- The token that a node was made from. -/
def Node.token : Node → Token
  | .literal value _ => .number value
  | .operation op _ => op.token

/-- The token that a node was made from, with its position. -/
def Node.lexeme (node : Node) : Lexeme := ⟨node.token, node.position⟩

theorem Node.token_ne_endOfInput (node : Node) : node.token ≠ .endOfInput := by
  rcases node with ⟨value, p⟩ | ⟨op, p⟩
  · exact nofun
  · cases op <;> exact nofun

/-- The nodes of an expression: those of the left operand, the root, those of the right one. -/
def inorder : Expr → List Node
  | .literal value p => [.literal value p]
  | .binary op left right p => left.inorder ++ .operation op p :: right.inorder

/-- The root of a subtree that is an operation is a node. -/
theorem operation_mem_inorder {e left right : Expr} {op : Operator} {p : Nat}
    (h : .binary op left right p ∈ e.subtrees) : .operation op p ∈ e.inorder := by
  induction e with
  | literal value q => cases List.mem_singleton.mp h
  | binary op' left' right' q ihleft ihright =>
    rw [subtrees, List.mem_append, List.mem_append, List.mem_singleton] at h
    rw [inorder, List.mem_append, List.mem_cons]
    rcases h with (h | h) | h
    · exact .inl (ihleft h)
    · exact .inr (.inr (ihright h))
    · cases h
      exact .inr (.inl rfl)

/-- An expression whose positions stay is not changed. -/
theorem mapPosition_eq_self {f : Nat → Nat} {e : Expr}
    (h : ∀ p ∈ e.inorder.map Node.position, f p = p) : e.mapPosition f = e := by
  induction e with
  | literal value p => rw [mapPosition, h p (by simp [inorder, Node.position])]
  | binary op left right p ihleft ihright =>
    simp only [inorder, List.map_append, List.map_cons, List.mem_append, List.mem_cons] at h
    rw [mapPosition, ihleft fun q hq => h q (.inl hq),
      ihright fun q hq => h q (.inr (.inr hq)), h p (.inr (.inl rfl))]

end Expr

/-- **The lexemes of a phrase, parentheses left out, are the nodes of its tree.** -/
theorem Derives.filter_isParenthesis {c : Category} {ls : List Lexeme} {e : Expr}
    (h : Derives c ls e) :
    ls.filter (fun l => !l.token.isParenthesis) = e.inorder.map Expr.Node.lexeme := by
  induction h with
  | number value p => rfl
  | parens p q _ ih => simpa [Token.isParenthesis] using ih
  | ofFactor _ ih | ofTerm _ ih => exact ih
  | operation op p _ _ ihleft ihright =>
    rw [List.filter_append, List.filter_cons_of_pos (by rw [Token.isParenthesis_token]; rfl),
      ihleft, ihright, Expr.inorder, List.map_append, List.map_cons]
    rfl

variable {text : String} {strict : Bool} {e : Expr}

/-- **The nodes of a tree are read one after the other**, with other readings between them and after
them. -/
theorem inorder_sublist_readings (h : parse text strict = .ok e) :
    (e.inorder.map fun node => (.ok node.lexeme : Reading)).Sublist (readings text) := by
  obtain ⟨next, ⟨ls, rest, hreadings, hderives⟩, -, -⟩ := beginsWith_of_parse h
  have hsublist : (e.inorder.map Expr.Node.lexeme).Sublist ls := by
    rw [← hderives.filter_isParenthesis]
    exact List.filter_sublist
  have hmap := hsublist.map (Except.ok : Lexeme → Reading)
  rw [List.map_map] at hmap
  rw [hreadings]
  exact hmap.trans (List.sublist_append_left _ _)

/-- A node of a tree is a word of the text. -/
theorem lexeme_mem_wordsAt (h : parse text strict = .ok e) {node : Expr.Node}
    (hnode : node ∈ e.inorder) : .ok node.lexeme ∈ wordsAt 0 text.toList := by
  have hmem := (inorder_sublist_readings h).subset (List.mem_map_of_mem hnode)
  rw [readings_eq, List.mem_append, List.mem_singleton] at hmem
  rcases hmem with hmem | hend
  · exact hmem
  · exact absurd (congrArg Lexeme.token (Except.ok.inj hend)) node.token_ne_endOfInput

/-- **Each node stands before the next.** -/
theorem pairwise_position_inorder (h : parse text strict = .ok e) :
    (e.inorder.map Expr.Node.position).Pairwise (· < ·) := by
  have hpairwise := (pairwise_position_readings text).sublist (inorder_sublist_readings h)
  rw [List.pairwise_map] at hpairwise ⊢
  exact hpairwise

end Calculator
