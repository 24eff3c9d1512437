import Calculator.Calculation
import Calculator.CommandLine.Options

/-!
# What the program answers

The answer to a calculation is some lines of output and the part of the record that was asked for.
An error in the expression is an answer like any other.

## Main definitions

* `CommandLine.Response`: exit code, output and shown record.
* `CommandLine.helpLines`: how the program is used.
* `Options.answer`: the answer to a text.
* `CommandLine.respond`: the answer to arguments and an input.
-/

namespace Calculator

namespace CommandLine

/-- What a run of the program leaves. -/
structure Response where
  code : Nat
  output : String
  /-- The lines of the record that are shown. -/
  record : List String
  deriving DecidableEq, Inhabited

/-- Lines of text, each with its end. -/
def unlines (lines : List String) : String := String.join (lines.map (· ++ "\n"))

/-- What is written before an expression is read from the input. -/
def prompt : String := "Enter an expression: "

/-- The line that shows an error. -/
def errorLine (message : String) : String := "Error: " ++ message

/-! ### Answers to a text -/

namespace Options

/-- The lines that show the tokens of a text, and what happened on the way. -/
def tokenLines (text : String) : List String × List Event :=
  let read := tokenizeLogged text
  match read.result with
  | .ok tokens => (tokens.map Token.label, read.log)
  | .error e => ([errorLine e.message], read.log)

/-- The lines that show the value of a text, after its tree if `tree` is set, and what happened on
the way. -/
def valueLines (strict tree : Bool) (text : String) : List String × List Event :=
  let parsed := parseLogged text strict
  match parsed.result with
  | .ok e =>
    let value := e.evaluate
    let line :=
      match value.result with
      | .ok v => "Result: " ++ v.render
      | .error e => errorLine e.message
    ((if tree then [e.render] else []) ++ [line], parsed.log ++ value.log)
  | .error e => ([errorLine e.message], parsed.log)

/-- The answer to a text. -/
def answer (o : Options) (text : String) : Response :=
  let (lines, log) := if o.tokens then tokenLines text else valueLines o.strict o.tree text
  ⟨0, unlines lines, shownAt o.level log⟩

end Options

/-! ### Without a calculation -/

/-- How the program is called. -/
def usage : String := "Usage: reckon [OPTIONS] [EXPRESSION]"

namespace Flag

/-- What a flag is good for. -/
def purpose : Flag → String
  | .strict => "Reject anything left over after a complete expression"
  | .tokens => "Print the token stream instead of evaluating"
  | .tree => "Print the parsed expression, fully parenthesized, before the result"
  | .verbose => "Show more in logs, may be provided multiple times"
  | .help => "Print help"
  | .version => "Print version"

/-- How a flag is written, with dots if it may be repeated. -/
def spelling (flag : Flag) : String :=
  let dots := if flag = .verbose then "..." else ""
  "-" ++ flag.letter.toString ++ ", --" ++ flag.name ++ dots

/-- The line that explains a flag. What it is good for begins in a column of its own. -/
def helpLine (flag : Flag) : String :=
  "  " ++ String.ofList (flag.spelling.toList.rightpad 18 ' ') ++ flag.purpose

end Flag

/-- The lines that explain the arguments. -/
def helpLines : List String :=
  ["A small integer arithmetic expression evaluator",
    "",
    usage,
    "",
    "Arguments:",
    "  [EXPRESSION]  The expression to evaluate. Read from stdin when omitted",
    "",
    "Options:"] ++
  Flag.all.map Flag.helpLine

/-- The answer when there is nothing to calculate. -/
def Halt.response : Halt → Response
  | .help => ⟨0, unlines helpLines, []⟩
  | .version => ⟨0, "reckon 0.1.0\n", []⟩
  | .misuse => ⟨2, "", []⟩

/-! ### All answers -/

/-- The first line of an input with its end, if it has one. -/
def firstLine (input : List UInt8) : List UInt8 :=
  input.takeWhile (· ≠ 10) ++ (input.dropWhile (· ≠ 10)).take 1

/-- The answer to a line of input; `none` if the line is not UTF-8. -/
def Options.answerLine? (o : Options) (line : List UInt8) : Option Response :=
  (String.fromUTF8? ⟨line.toArray⟩).map o.answer

/-- The answer to arguments and an input. The input is looked at only when the arguments hold no
expression, and only its first line. -/
def respond (args : List String) (input : List UInt8) : Response :=
  match Options.read args with
  | .error halt => halt.response
  | .ok o =>
    match o.expression with
    | some text => o.answer text
    | none =>
      match o.answerLine? (firstLine input) with
      | some r => { r with output := prompt ++ r.output }
      | none => ⟨1, prompt, []⟩

end CommandLine

end Calculator
