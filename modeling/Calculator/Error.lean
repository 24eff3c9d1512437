import Calculator.Token

/-!
# What can be wrong with an expression

Three groups of causes, by the stage that finds them: the spelling of a token, the order of the
tokens, and the arithmetic. Each cause carries the byte offset that it is about and has one
message.

## Main definitions

* `Calculator.LexError`, `Calculator.SyntaxError`, `Calculator.RuntimeError`, each with
  `position` and `message`.
* `Calculator.Error`: their union.
-/

namespace Calculator

/-- A piece of text that is no token. -/
inductive LexError where
  /-- No token starts with this character. -/
  | invalidCharacter (character : Char) (position : Nat)
  /-- A run of digits whose value is too large for a literal. -/
  | integerTooLarge (literal : String) (position : Nat)
  deriving DecidableEq

namespace LexError

def position : LexError → Nat
  | .invalidCharacter _ p | .integerTooLarge _ p => p

def message : LexError → String
  | .invalidCharacter c p => s!"Invalid character '{c}' at offset {p}."
  | .integerTooLarge literal p => s!"Integer literal {literal} at offset {p} is too large."

end LexError

/-- A token in a place where it cannot stand. -/
inductive SyntaxError where
  /-- One particular kind of token was required. -/
  | unexpectedToken (expected found : Token.Kind) (position : Nat)
  /-- A literal or an opening parenthesis was required. -/
  | expectedFactor (found : Token.Kind) (position : Nat)
  /-- The end of the input was required, after a complete expression. -/
  | trailingInput (found : Token.Kind) (position : Nat)
  deriving DecidableEq

namespace SyntaxError

def position : SyntaxError → Nat
  | .unexpectedToken _ _ p | .expectedFactor _ p | .trailingInput _ p => p

/-- The kind of the token that cannot stand there. -/
def found : SyntaxError → Token.Kind
  | .unexpectedToken _ k _ | .expectedFactor k _ | .trailingInput k _ => k

def message : SyntaxError → String
  | .unexpectedToken expected found p =>
    s!"Expected {expected.describe} but found {found.describe} at offset {p}."
  | .expectedFactor found p =>
    s!"Expected a number or '(' but found {found.describe} at offset {p}."
  | .trailingInput found p =>
    s!"Extra tokens after expression, starting with {found.describe} at offset {p}."

end SyntaxError

/-- An operator that cannot be applied to its operands; the position is the operator's. -/
inductive RuntimeError where
  | divisionByZero (position : Nat)
  /-- The exact result of an integer operation needs more than 64 bits. -/
  | overflow (position : Nat)
  deriving DecidableEq

namespace RuntimeError

def position : RuntimeError → Nat
  | .divisionByZero p | .overflow p => p

def message : RuntimeError → String
  | .divisionByZero p => s!"Division by zero at offset {p}."
  | .overflow p => s!"Integer overflow at offset {p} while trying to compute result."

end RuntimeError

/-- Whatever can go wrong between the text of an expression and its value. -/
inductive Error where
  | lexical (cause : LexError)
  | syntactic (cause : SyntaxError)
  | runtime (cause : RuntimeError)
  deriving DecidableEq

namespace Error

def position : Error → Nat
  | .lexical e => e.position
  | .syntactic e => e.position
  | .runtime e => e.position

def message : Error → String
  | .lexical e => e.message
  | .syntactic e => e.message
  | .runtime e => e.message

end Error

end Calculator
