import Calculator.CommandLine.Response
import Calculator.Proofs.Results

/-!
# What arguments ask for

Options can be asked for in many ways, and the order does not matter. Here one way is chosen: a
letter for each flag that is set, as many letters as are needed to show more of the record, and the
expression behind `--`, where it is not mistaken for a flag. Reading these arguments gives the
options back, so that there is no choice of options that cannot be made.

The order does matter where there is nothing to calculate. The first argument that shows a page or
makes no sense decides the answer, whatever is behind it.

## Main definitions

* `Options.arguments`: arguments that ask for the given options.

## Main results

* `Options.readFrom_flag`: reading a flag of one letter.
* `Options.read_arguments`: the arguments ask for the options.
* `Options.readFrom_append_of_error`, `respond_append_of_halt`: the first argument that decides the
  answer does so.
-/

namespace Calculator

namespace CommandLine

namespace Options

/-- The argument that sets a flag of one letter, if it has to be set. -/
def flagArgument (set : Bool) (arg : String) : List String := if set then [arg] else []

/-- The expression behind the end of the flags, if there is one. -/
def expressionArguments : Option String → List String
  | some text => ["--", text]
  | none => []

/-- Arguments that ask for the given options. -/
def arguments (o : Options) : List String :=
  flagArgument o.strict "-s" ++ (flagArgument o.tokens "-t" ++ (flagArgument o.tree "-a" ++
    (List.replicate o.verbosity "-v" ++ expressionArguments o.expression)))

/-- **Reading a flag of one letter** sets the flag, and then the other arguments are read. -/
theorem readFrom_flag {arg : String} {flag : Flag} (harg : arg.toList = ['-', flag.letter])
    (o : Options) (args : List String) :
    o.readFrom (arg :: args) = (o.set flag).bind fun p => p.readFrom args := by
  have hflag : Flag.ofLetter? flag.letter = some flag := Flag.ofLetter?_eq_some_iff.mpr rfl
  have hletter : flag.letter ≠ '-' := by cases flag <;> decide
  rw [readFrom, harg]
  split
  · next h => simp_all
  · next h => simp_all
  · next h =>
    cases h
    rw [List.foldlM_cons, hflag, set?]
    cases o.set flag <;> rfl
  · next h => exact absurd rfl (h flag.letter [])

theorem readFrom_flagArgument {arg : String} {flag : Flag} {o p : Options} {isSet : Bool}
    (harg : arg.toList = ['-', flag.letter])
    (hset : (if isSet then o.set flag else .ok o) = .ok p) (args : List String) :
    o.readFrom (flagArgument isSet arg ++ args) = p.readFrom args := by
  cases isSet with
  | true =>
    have hp : o.set flag = .ok p := hset
    rw [flagArgument, if_pos rfl, List.singleton_append, readFrom_flag harg, hp]
    rfl
  | false =>
    obtain rfl : o = p := Except.ok.inj hset
    rfl

/-- Each `-v` shows more of the record. -/
theorem readFrom_verbose (n : Nat) (o : Options) (args : List String) :
    o.readFrom (List.replicate n "-v" ++ args) =
      { o with verbosity := o.verbosity + n }.readFrom args := by
  induction n generalizing o with
  | zero => rfl
  | succ n ih =>
    have harg : "-v".toList = ['-', Flag.verbose.letter] := rfl
    rw [List.replicate_succ, List.cons_append, readFrom_flag harg, set, Except.bind, ih,
      Nat.add_assoc, Nat.add_comm 1]

/-- What is behind `--` is the expression. -/
theorem readFrom_expressionArguments {o : Options} (h : o.expression = none)
    (expression : Option String) :
    o.readFrom (expressionArguments expression) = .ok { o with expression := expression } := by
  obtain ⟨strict, tokens, tree, verbosity, _⟩ := o
  cases h
  cases expression with
  | none => rfl
  | some text =>
    have hdashes : "--".toList = ['-', '-'] := rfl
    rw [expressionArguments, readFrom, hdashes]
    rfl

/-- **The arguments ask for the options.** -/
theorem read_arguments (o : Options) : read o.arguments = .ok o := by
  obtain ⟨strict, tokens, tree, verbosity, expression⟩ := o
  have hs : "-s".toList = ['-', Flag.strict.letter] := rfl
  have ht : "-t".toList = ['-', Flag.tokens.letter] := rfl
  have ha : "-a".toList = ['-', Flag.tree.letter] := rfl
  have hstrict : ∀ args, readFrom {} (flagArgument strict "-s" ++ args) =
      readFrom { strict } args :=
    readFrom_flagArgument hs (by cases strict <;> rfl)
  have htokens : ∀ args, readFrom { strict } (flagArgument tokens "-t" ++ args) =
      readFrom { strict, tokens } args :=
    readFrom_flagArgument ht (by cases tokens <;> rfl)
  have htree : ∀ args, readFrom { strict, tokens } (flagArgument tree "-a" ++ args) =
      readFrom { strict, tokens, tree } args :=
    readFrom_flagArgument ha (by cases tree <;> rfl)
  rw [read, arguments, hstrict, htokens, htree, readFrom_verbose,
    readFrom_expressionArguments rfl, Nat.zero_add]

/-! ### Nothing to calculate -/

/-- **The first argument that decides the answer does so**, whatever is behind it. -/
theorem readFrom_append_of_error {o : Options} {args : List String} {halt : Halt}
    (h : o.readFrom args = .error halt) (rest : List String) :
    o.readFrom (args ++ rest) = .error halt := by
  induction args generalizing o with
  | nil => cases h
  | cons arg args ih =>
    -- an argument leaves options, from which the others are read
    have hbind : ∀ {x : Except Halt Options}, (x.bind fun p => p.readFrom args) = .error halt →
        (x.bind fun p => p.readFrom (args ++ rest)) = .error halt := fun hx =>
      bind_eq_error_iff.mpr
        ((bind_eq_error_iff.mp hx).imp_right fun ⟨p, hp, hargs⟩ => ⟨p, hp, ih hargs⟩)
    rw [readFrom] at h
    rw [List.cons_append, readFrom]
    split at h
    · rw [List.foldlM_append, h]
      rfl
    all_goals exact hbind h

end Options

/-- The answer without a calculation does not depend on what else there is. -/
theorem respond_append_of_halt {args : List String} {halt : Halt}
    (h : Options.read args = .error halt) (rest : List String) (input : List UInt8) :
    respond (args ++ rest) input = halt.response := by
  rw [respond, Options.read, Options.readFrom_append_of_error h]

end CommandLine

end Calculator
