import Calculator.CommandLine.Response
import Calculator.Proofs.Arguments
import Calculator.Proofs.Bytes
import Calculator.Proofs.TrailingBlanks

/-!
# Three ways to give an expression

The program takes an expression as an argument or, if there is none, as the first line of its input,
and a library user calls `parse` and `evaluate` with it. All three ways come to the same thing. What
is not obvious is the line: it is read as bytes, and it keeps its end. The bytes do no harm, since
none of those of another character is an end of line. The end of the line is a blank behind
everything else, so that the same words are read and the same tree is made of them. It only moves
the end of the input, and this is seen in one place: in an error about the end.

## Main definitions

* `CommandLine.valueLine`, `CommandLine.treeLines`: what is shown of a value and of a tree.

## Main results

* `CommandLine.Options.fst_tokenLines`, `CommandLine.Options.fst_valueLines`: the lines depend on
  the results only.
* `CommandLine.firstLine_bytes`, `CommandLine.firstLine_of_newline`: the first line of an input.
* `CommandLine.respond_line`: the program answers alike, and as the library does.
-/

namespace Calculator

namespace CommandLine

/-! ### Lines -/

/-- The line that shows a value or an error. -/
def valueLine : Except Error Number → String
  | .ok n => "Result: " ++ n.render
  | .error e => errorLine e.message

/-- The line that shows a tree, if it is asked for and there is one. -/
def treeLines (tree : Bool) : Except Error Expr → List String
  | .ok e => if tree then [e.render] else []
  | .error _ => []

namespace Options

/-- The lines for the tokens of a text depend on the tokens only. -/
theorem fst_tokenLines (text : String) :
    (tokenLines text).1 = match tokenize text with
      | .ok tokens => tokens.map Token.label
      | .error e => [errorLine e.message] := by
  rw [tokenLines, tokenize]
  cases (tokenizeLogged text).result <;> rfl

/-- **The lines for the value of a text** show its tree and then its value. -/
theorem fst_valueLines (strict tree : Bool) (text : String) :
    (valueLines strict tree text).1 =
      treeLines tree (parse text strict) ++ [valueLine (evaluate text strict)] := by
  rw [valueLines, evaluate_eq_bind, parse]
  cases (parseLogged text strict).result with
  | error e => rfl
  | ok e =>
    dsimp only [Except.bind]
    cases e.evaluate.result <;> rfl

/-- The output of an answer. -/
theorem output_answer (o : Options) (text : String) :
    (o.answer text).output =
      unlines (if o.tokens then (tokenLines text).1
        else treeLines o.tree (parse text o.strict) ++ [valueLine (evaluate text o.strict)]) := by
  rw [← fst_valueLines, answer]
  cases o.tokens <;> rfl

/-- The output depends on the tokens if they are shown, and otherwise on what parsing gives. -/
theorem output_answer_congr {o : Options} {s t : String} (htokens : tokenize s = tokenize t)
    (hparse : o.tokens = true ∨ parse s o.strict = parse t o.strict) :
    (o.answer s).output = (o.answer t).output := by
  rw [output_answer, output_answer, fst_tokenLines, fst_tokenLines, htokens]
  rcases hparse with hshown | hparse
  · rw [hshown, if_pos rfl, if_pos rfl]
  · rw [evaluate_eq_bind, evaluate_eq_bind, hparse]

/-- The output for a text that is not parsed is its error. -/
theorem output_answer_of_error {o : Options} {text : String} {e : Error}
    (htokens : o.tokens = false) (h : parse text o.strict = .error e) :
    (o.answer text).output = unlines [errorLine e.message] := by
  rw [output_answer, htokens, evaluate_eq_bind, h]
  rfl

end Options

/-! ### The first line of an input -/

/-- No byte of a text without the end of a line is the end of a line. -/
theorem ne_newline_of_mem_bytes {x : String} (hx : '\n' ∉ x.toList) :
    ∀ b ∈ bytes x, decide (b ≠ 10) = true := by
  intro b hb
  rw [decide_eq_true_iff]
  rintro rfl
  have hascii : '\n'.utf8Size = 1 := rfl
  exact hx (mem_of_mem_bytes hascii hb)

/-- An input without the end of a line is one line. -/
theorem firstLine_bytes {x : String} (hx : '\n' ∉ x.toList) : firstLine (bytes x) = bytes x := by
  have hline := ne_newline_of_mem_bytes hx
  rw [firstLine, List.takeWhile_eq_self_iff.mpr hline, List.dropWhile_eq_nil_iff.mpr hline,
    List.take_nil, List.append_nil]

/-- The first line of an input is what stands before the first end of a line, with this end. -/
theorem firstLine_of_newline {x : String} (hx : '\n' ∉ x.toList) (rest : List UInt8) :
    firstLine (bytes x ++ 10 :: rest) = bytes (x ++ "\n") := by
  have hline := ne_newline_of_mem_bytes hx
  have hbytes : bytes "\n" = [10] := by decide
  rw [firstLine, List.takeWhile_append_of_pos hline, List.dropWhile_append_of_pos hline,
    bytes_append, hbytes]
  simp

/-! ### Arguments and input -/

/-- The answer to an expression among the arguments. -/
theorem output_respond_of_expression {args : List String} {o : Options} {x : String}
    (h : Options.read args = .ok { o with expression := some x }) (input : List UInt8) :
    (respond args input).output = (o.answer x).output := by
  rw [respond, h]
  rfl

/-- The answer to an expression on the first line of the input. -/
theorem output_respond_of_firstLine {args : List String} {o : Options} {line : String}
    {input : List UInt8} (h : Options.read args = .ok { o with expression := none })
    (hline : firstLine input = bytes line) :
    (respond args input).output = prompt ++ (o.answer line).output := by
  rw [respond, h]
  dsimp only
  rw [Options.answerLine?, hline, fromUTF8?_bytes]
  rfl

/-- **An argument, a line of input and a call of the library come to the same thing.** Whatever is
asked for, there are arguments that ask for it, with an expression and without one. The program
shows the same of an expression that it reads from its input as of one among its arguments, behind
the prompt; and when it does not show tokens it shows the tree that the library gives, if it is to,
and then the value or the error. The end of the line makes one difference: it moves an error about
the end of the input. -/
theorem respond_line {x : String} (hx : '\n' ∉ x.toList) (o : Options) :
    (∃ args, Options.read args = .ok { o with expression := none }) ∧
    (∃ args, Options.read args = .ok { o with expression := some x }) ∧
    ∀ args args', Options.read args = .ok { o with expression := none } →
      Options.read args' = .ok { o with expression := some x } → ∀ input rest : List UInt8,
      (respond args (bytes x)).output = prompt ++ (respond args' input).output ∧
      ((o.tokens = true ∨
          ∀ c, parse x o.strict = .error (.syntactic c) → c.found ≠ .endOfInput) →
        (respond args (bytes x ++ 10 :: rest)).output = prompt ++ (respond args' input).output) ∧
      (o.tokens = false → ∀ c, parse x o.strict = .error (.syntactic c) →
        c.found = .endOfInput →
        c.position = x.utf8ByteSize ∧
        (respond args' input).output = unlines [errorLine c.message] ∧
        (respond args (bytes x ++ 10 :: rest)).output =
          prompt ++ unlines [errorLine (c.mapPosition fun _ => x.utf8ByteSize + 1).message]) ∧
      (o.tokens = false → (respond args' input).output =
        unlines (treeLines o.tree (parse x o.strict) ++ [valueLine (evaluate x o.strict)])) := by
  have hnewline : Blank "\n" := by decide
  refine ⟨⟨_, Options.read_arguments _⟩, ⟨_, Options.read_arguments _⟩, ?_⟩
  intro args args' hargs hargs' input rest
  have hargument := output_respond_of_expression hargs' input
  have hline := output_respond_of_firstLine hargs (firstLine_of_newline hx rest)
  obtain ⟨hsame, hmoved⟩ := parse_append_blanks (u := x) hnewline o.strict
  refine ⟨?_, fun hcase => ?_, fun htokens c hc hend => ?_, fun htokens => ?_⟩
  · rw [hargument, output_respond_of_firstLine hargs (firstLine_bytes hx)]
  · rw [hline, hargument, Options.output_answer_congr (tokenize_append_blanks hnewline)
      (hcase.imp_right hsame)]
  · obtain ⟨hposition, hparse⟩ := hmoved c hc hend
    rw [hline, hargument, Options.output_answer_of_error htokens hc,
      Options.output_answer_of_error htokens hparse]
    exact ⟨hposition, rfl, rfl⟩
  · rw [hargument, Options.output_answer, htokens]
    rfl

/-- An operand is missing at the end, which is behind the end of the line if there is one. -/
theorem respond_line_missing_operand :
    (respond ["-a", "1+"] []).output =
      "Error: Expected a number or '(' but found end of input at offset 2.\n" ∧
    (respond ["-a"] (bytes "1+")).output = prompt ++ (respond ["-a", "1+"] []).output ∧
    (respond ["-a"] (bytes "1+" ++ 10 :: bytes "2")).output =
      prompt ++ "Error: Expected a number or '(' but found end of input at offset 3.\n" := by
  have hx : '\n' ∉ "1+".toList := by decide
  have hparse : parse "1+" false = .error (.syntactic (.expectedFactor .endOfInput 2)) :=
    error_of_error? (by decide +kernel)
  obtain ⟨-, -, hrespond⟩ := respond_line hx { tree := true }
  obtain ⟨halone, -, hend, -⟩ := hrespond ["-a"] ["-a", "1+"] (ok_of_toOption (by decide +kernel))
    (ok_of_toOption (by decide +kernel)) [] (bytes "2")
  obtain ⟨-, hargument, hline⟩ := hend rfl _ hparse rfl
  exact ⟨hargument.trans (by decide +kernel), halone, hline.trans (by decide +kernel)⟩

end CommandLine

end Calculator
