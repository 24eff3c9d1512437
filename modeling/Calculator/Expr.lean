import Calculator.Token

/-!
# Expression trees

Parentheses leave no node: the tree alone says what is computed first. Every node keeps the
position of the token that it was made from.

## Main definitions

* `Calculator.Operator` and `Calculator.Expr`.
* `Token.operator?`: the operator that a token stands for.
* `Expr.render`: the expression fully parenthesized.
* `Expr.postorder` and `Expr.ofPostorder?`: a tree as the list of its nodes, operands first.

## Main results

* `Expr.ofPostorder?_postorder`: the list determines the tree.
-/

namespace Calculator

inductive Operator where
  | add
  | sub
  | mul
  | div
  deriving DecidableEq, Inhabited

namespace Operator

def symbol : Operator → Char
  | .add => '+'
  | .sub => '-'
  | .mul => '*'
  | .div => '/'

/-- Every operator, each once. -/
def all : List Operator := [.add, .sub, .mul, .div]

/-- The token that stands for the operator. -/
def token : Operator → Token
  | .add => .plus
  | .sub => .minus
  | .mul => .star
  | .div => .slash

end Operator

/-- The operator that a token stands for. -/
def Token.operator? : Token → Option Operator
  | .plus => some .add
  | .minus => some .sub
  | .star => some .mul
  | .slash => some .div
  | _ => none

theorem Token.operator?_eq_some_iff {t : Token} {op : Operator} :
    t.operator? = some op ↔ t = op.token := by
  cases t <;> cases op <;> simp [Token.operator?, Operator.token]

/-- An expression. The position of a literal is that of its first digit, the position of an
operation that of its operator. -/
inductive Expr where
  | literal (value : Integer) (position : Nat)
  | binary (op : Operator) (left right : Expr) (position : Nat)
  deriving DecidableEq, Inhabited

namespace Expr

/-- The position of the root. -/
def position : Expr → Nat
  | .literal _ p | .binary _ _ _ p => p

/-- The expression with parentheses around every operation and a blank on either side of every
operator. -/
def render : Expr → String
  | .literal value _ => value.render
  | .binary op left right _ =>
    "(" ++ left.render ++ " " ++ op.symbol.toString ++ " " ++ right.render ++ ")"

/-! ### Postorder -/

/-- A node of an expression without its operands. -/
inductive Node where
  | literal (value : Integer) (position : Nat)
  | operation (op : Operator) (position : Nat)
  deriving DecidableEq, Inhabited

/-- The nodes of an expression: those of the left operand, those of the right one, the root. -/
def postorder : Expr → List Node
  | .literal value p => [.literal value p]
  | .binary op left right p => left.postorder ++ right.postorder ++ [.operation op p]

/-- Reads nodes onto a stack of expressions; an operation takes the two on top as its operands.
There must be two. -/
def build? : List Node → List Expr → Option (List Expr)
  | [], stack => some stack
  | .literal value p :: nodes, stack => build? nodes (.literal value p :: stack)
  | .operation op p :: nodes, right :: left :: stack =>
    build? nodes (.binary op left right p :: stack)
  | .operation _ _ :: _, _ => none

/-- The expression with the given nodes, if they are the nodes of one. -/
def ofPostorder? (nodes : List Node) : Option Expr :=
  match build? nodes [] with
  | some [e] => some e
  | _ => none

theorem build?_postorder_append (e : Expr) (nodes : List Node) (stack : List Expr) :
    build? (e.postorder ++ nodes) stack = build? nodes (e :: stack) := by
  induction e generalizing nodes stack with
  | literal value p => rfl
  | binary op left right p ihl ihr => simp [postorder, ihl, ihr, build?]

/-- The list of nodes determines the expression. -/
theorem ofPostorder?_postorder (e : Expr) : ofPostorder? e.postorder = some e := by
  have h := build?_postorder_append e [] []
  rw [List.append_nil] at h
  simp [ofPostorder?, h, build?]

end Expr

end Calculator
