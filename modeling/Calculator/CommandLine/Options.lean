import Calculator.Event

/-!
# Command line options

Arguments are read from left to right and the first one that decides the outcome does so, whatever
follows it. Options are flags: `--name`, or `-x` with one or more letters. Everything else is the
expression, of which there may be one; after `--` there are no options any more. A lone `-` and the
empty argument are expressions.

## Main definitions

* `CommandLine.Flag`, with the letter and the name that it goes by, and `CommandLine.Options`.
* `Options.read`: what the arguments ask for.

## Main results

* `Flag.ofLetter?_eq_some_iff`, `Flag.ofName?_eq_some_iff`: how a flag is read.
-/

namespace Calculator

namespace CommandLine

inductive Flag where
  /-- Nothing may follow the expression. -/
  | strict
  /-- Show the tokens instead of the value. -/
  | tokens
  /-- Show the tree before the value. -/
  | tree
  /-- Show more of the record. -/
  | verbose
  /-- Show how the program is used and do nothing else. -/
  | help
  /-- Show the version and do nothing else. -/
  | version
  deriving DecidableEq, Inhabited

namespace Flag

/-- The flags, in the order in which they are explained. -/
def all : List Flag := [.strict, .tokens, .tree, .verbose, .help, .version]

def letter : Flag → Char
  | .strict => 's'
  | .tokens => 't'
  | .tree => 'a'
  | .verbose => 'v'
  | .help => 'h'
  | .version => 'V'

def name : Flag → String
  | .strict => "strict"
  | .tokens => "tokens"
  | .tree => "ast"
  | .verbose => "verbose"
  | .help => "help"
  | .version => "version"

/-- The flag of `-letter`. -/
def ofLetter? (letter : Char) : Option Flag := all.find? fun flag => flag.letter = letter

/-- The flag of `--name`. Names are not abbreviated and take no value. -/
def ofName? (name : String) : Option Flag := all.find? fun flag => flag.name = name

theorem ofLetter?_eq_some_iff {letter : Char} {flag : Flag} :
    ofLetter? letter = some flag ↔ flag.letter = letter := by
  constructor
  · intro h
    simpa using List.find?_some h
  · rintro rfl
    cases flag <;> rfl

theorem ofName?_eq_some_iff {name : String} {flag : Flag} :
    ofName? name = some flag ↔ flag.name = name := by
  constructor
  · intro h
    simpa using List.find?_some h
  · rintro rfl
    cases flag <;> rfl

end Flag

/-- What is asked of a calculation. -/
structure Options where
  strict : Bool := false
  tokens : Bool := false
  tree : Bool := false
  /-- How often more of the record was asked for. -/
  verbosity : Nat := 0
  /-- The expression; it is read from the input when there is none. -/
  expression : Option String := none
  deriving DecidableEq, Inhabited

/-- Why there is nothing to calculate. -/
inductive Halt where
  | help
  | version
  /-- The arguments make no sense. -/
  | misuse
  deriving DecidableEq, Inhabited

namespace Options

/-- The level from which on events are shown. -/
def level (o : Options) : Level :=
  match o.verbosity with
  | 0 => .warn
  | 1 => .info
  | 2 => .debug
  | _ => .trace

/-- Sets a flag. Only the request for more of the record may be repeated. -/
def set (o : Options) : Flag → Except Halt Options
  | .strict => if o.strict then .error .misuse else .ok { o with strict := true }
  | .tokens => if o.tokens then .error .misuse else .ok { o with tokens := true }
  | .tree => if o.tree then .error .misuse else .ok { o with tree := true }
  | .verbose => .ok { o with verbosity := o.verbosity + 1 }
  | .help => .error .help
  | .version => .error .version

/-- Sets a flag that may not be one. -/
def set? (o : Options) : Option Flag → Except Halt Options
  | some flag => o.set flag
  | none => .error .misuse

/-- Sets the expression, once. -/
def setExpression (o : Options) (text : String) : Except Halt Options :=
  match o.expression with
  | some _ => .error .misuse
  | none => .ok { o with expression := some text }

/-- Reads arguments one after the other. -/
def readFrom (o : Options) : List String → Except Halt Options
  | [] => .ok o
  | arg :: args =>
    match arg.toList with
    | ['-', '-'] => args.foldlM setExpression o
    | '-' :: '-' :: name => do
      let o ← o.set? (Flag.ofName? (String.ofList name))
      o.readFrom args
    | '-' :: letter :: letters => do
      let o ← (letter :: letters).foldlM (fun o c => o.set? (Flag.ofLetter? c)) o
      o.readFrom args
    | _ => do
      let o ← o.setExpression arg
      o.readFrom args

/-- What the arguments ask for. -/
def read (args : List String) : Except Halt Options := readFrom {} args

end Options

end CommandLine

end Calculator
