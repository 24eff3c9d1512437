import Calculator.Evaluation
import Calculator.TokenStream.Rules

/-!
# Parsing and evaluating expressions from a stream

Several expressions may stand one after the other in a stream; each call takes one. What follows an
expression is ignored, with a warning, or refused.

## Main definitions

* `TokenStream.parse`: takes an expression; strictly, if it has to be the last.
* `TokenStream.evaluateNext`: an expression's tree, and then its value.
* `TokenStream.calculate`: the same, with the value recorded.
-/

namespace Calculator

namespace TokenStream

/-- Takes an expression. If it is not the last thing in the input, then that is an error when
`strict` is set, and worth a warning otherwise; what follows stays in the stream. -/
def parse (strict : Bool) (s : TokenStream) : Outcome Error TokenStream Expr :=
  s.expression.andThen fun e rest =>
    match strict, rest.head.token with
    | true, .endOfInput => ⟨⟨.ok e, [.parsedComplete e]⟩, rest⟩
    | true, token => .error (.syntactic (.trailingInput token.kind rest.head.position)) rest
    | false, .endOfInput => ⟨⟨.ok e, [.parsed e]⟩, rest⟩
    | false, _ => ⟨⟨.ok e, [.ignoredTrailing rest.head, .parsed e]⟩, rest⟩

/-- Takes an expression and evaluates it; what follows stays in the stream. -/
def evaluateNext (s : TokenStream) : Outcome Error TokenStream Number :=
  (s.parse false).andCompute fun e => e.evaluate.mapError .runtime

/-- Takes an expression, strictly or not, evaluates it and records its value. -/
def calculate (strict : Bool) (s : TokenStream) : Outcome Error TokenStream Number :=
  (s.parse strict).andCompute fun e => do
    let value ← e.evaluate.mapError .runtime
    Logged.tell (.evaluated value)
    return value

end TokenStream

end Calculator
