import Calculator.TokenStream.Parsing

/-!
# Calculating from text

From a text to its tokens, its tree or its value. Each comes with a record of what happened, and
without it.

## Main definitions

* `Calculator.tokenize`, `Calculator.parse`, `Calculator.evaluate`.
* `Calculator.tokenizeLogged`, `Calculator.parseLogged`, `Calculator.evaluateLogged`.
-/

namespace Calculator

/-- The tokens of a text, its end left out. -/
def tokenizeLogged (text : String) : Logged LexError (List Token) := (Cursor.ofString text).tokens

@[inherit_doc tokenizeLogged]
def tokenize (text : String) : Except LexError (List Token) := (tokenizeLogged text).result

/-- The tree of the expression that a text begins with. If `strict` is set, the text has to end
with it. -/
def parseLogged (text : String) (strict : Bool) : Logged Error Expr := do
  let s ← (TokenStream.ofString text).mapError .lexical
  (s.parse strict).toLogged

@[inherit_doc parseLogged]
def parse (text : String) (strict : Bool) : Except Error Expr := (parseLogged text strict).result

/-- The value of the expression that a text begins with. If `strict` is set, the text has to end
with it. -/
def evaluateLogged (text : String) (strict : Bool) : Logged Error Number := do
  let s ← (TokenStream.ofString text).mapError .lexical
  (s.calculate strict).toLogged

@[inherit_doc evaluateLogged]
def evaluate (text : String) (strict : Bool) : Except Error Number :=
  (evaluateLogged text strict).result

end Calculator
