import Calculator.Integer

/-!
# Tokens

The words of the language of arithmetic expressions: integer literals, four operator signs, two
parentheses, and the end of the input, which is a token of its own so that there always is a next
one.

## Main definitions

* `Calculator.Token`, and `Token.Kind`, which forgets the value of a literal.
* `Token.Kind.describe`: how a message speaks of a token.
* `Token.label`: how a listing shows it.
* `Calculator.Lexeme`: a token together with the place where it was read.
-/

namespace Calculator

inductive Token where
  | number (value : Integer)
  | plus
  | minus
  | star
  | slash
  | leftParen
  | rightParen
  | endOfInput
  deriving DecidableEq, Inhabited

namespace Token

/-- What sort of token it is. -/
inductive Kind where
  | number
  | plus
  | minus
  | star
  | slash
  | leftParen
  | rightParen
  | endOfInput
  deriving DecidableEq, Inhabited

/-- How messages speak of a token of this kind. -/
def Kind.describe : Kind → String
  | .number => "a number"
  | .plus => "'+'"
  | .minus => "'-'"
  | .star => "'*'"
  | .slash => "'/'"
  | .leftParen => "'('"
  | .rightParen => "')'"
  | .endOfInput => "end of input"

/-- The name of the kind, as listings of tokens show it. -/
def Kind.label : Kind → String
  | .number => "Number"
  | .plus => "Plus"
  | .minus => "Minus"
  | .star => "Star"
  | .slash => "Slash"
  | .leftParen => "LParen"
  | .rightParen => "RParen"
  | .endOfInput => "End"

/-- Every kind, each once. -/
def Kind.all : List Kind :=
  [.number, .plus, .minus, .star, .slash, .leftParen, .rightParen, .endOfInput]

def kind : Token → Kind
  | .number _ => .number
  | .plus => .plus
  | .minus => .minus
  | .star => .star
  | .slash => .slash
  | .leftParen => .leftParen
  | .rightParen => .rightParen
  | .endOfInput => .endOfInput

/-- The name of the token's kind, followed by the value if it is a literal. -/
def label : Token → String
  | .number value => "Number(" ++ value.render ++ ")"
  | token => token.kind.label

theorem kind_eq_endOfInput_iff {t : Token} : t.kind = .endOfInput ↔ t = .endOfInput := by
  cases t <;> simp [kind]

end Token

/-- A token and the byte offset at which it starts in the text. The end of the input stands at the
length of the text. -/
structure Lexeme where
  token : Token
  position : Nat
  deriving DecidableEq, Inhabited

end Calculator
