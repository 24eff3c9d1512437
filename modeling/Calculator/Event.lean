import Calculator.Expr
import Calculator.Number

/-!
# What is recorded while an expression is worked out

An event says what happened and at which level of detail it is worth showing. Events carry the
values they speak of; their text is made only when they are shown.

## Main definitions

* `Calculator.Level` and `Calculator.Event`.
* `Event.render`: level, message, and the named values.
* `Calculator.shownAt`: the lines of a record that are worth showing at a level.
-/

namespace Calculator

/-- How important an event is, from the least to the most. -/
inductive Level where
  | trace
  | debug
  | info
  | warn
  deriving DecidableEq, Inhabited

namespace Level

def severity : Level → Nat
  | .trace => 0
  | .debug => 1
  | .info => 2
  | .warn => 3

def label : Level → String
  | .trace => "TRACE"
  | .debug => "DEBUG"
  | .info => "INFO"
  | .warn => "WARN"

end Level

/-- A step of reading or evaluating an expression. -/
inductive Event where
  | lexed (lexeme : Lexeme)
  | reachedEnd (position : Nat)
  | taken (lexeme : Lexeme)
  /-- An expression was accepted although a token follows it. -/
  | ignoredTrailing (lexeme : Lexeme)
  | parsed (expr : Expr)
  /-- An expression was accepted, and the input ends after it. -/
  | parsedComplete (expr : Expr)
  | applied (op : Operator) (left right result : Number)
  | evaluated (value : Number)
  deriving DecidableEq

namespace Event

def level : Event → Level
  | .lexed _ | .reachedEnd _ | .taken _ | .applied _ _ _ _ => .trace
  | .parsed _ | .parsedComplete _ | .evaluated _ => .debug
  | .ignoredTrailing _ => .warn

/-- The message and the named values. -/
def describe : Event → String
  | .lexed l => s!"lexed token token={l.token.label} position={l.position}"
  | .reachedEnd p => s!"reached end of input position={p}"
  | .taken l => s!"eat token={l.token.label} position={l.position}"
  | .ignoredTrailing l =>
    s!"ignoring trailing input token={l.token.label} position={l.position}"
  | .parsed e => "parsed expression expr=" ++ e.render
  | .parsedComplete e => "parsed complete expression expr=" ++ e.render
  | .applied op left right result =>
    s!"applied operator left={left.render} op={op.symbol} " ++
      s!"right={right.render} result={result.render}"
  | .evaluated value => "evaluated expression value=" ++ value.render

def render (e : Event) : String := e.level.label ++ " " ++ e.describe

end Event

/-- The lines to show of a record when only events from the given level up are wanted. -/
def shownAt (threshold : Level) (log : List Event) : List String :=
  (log.filter fun e => threshold.severity ≤ e.level.severity).map Event.render

end Calculator
