import Calculator.CommandLine.Response

/-!
# The program

Reads the arguments, asks for an expression when they hold none, and writes the answer: output to
the standard output, the record to the standard error.
-/

namespace Calculator

namespace CommandLine

/-- Reads bytes up to the end of a line, which is read too, or of the input. -/
partial def readLine (stream : IO.FS.Stream) (line : List UInt8) : IO (List UInt8) := do
  let bytes ← stream.read 1
  match bytes.toList with
  | [] => return line.reverse
  | byte :: _ => if byte = 10 then return (byte :: line).reverse else readLine stream (byte :: line)

/-- Writes an answer and gives its exit code. -/
def write (r : Response) : IO UInt32 := do
  r.record.forM fun line => IO.eprintln line
  IO.print r.output
  return r.code.toUInt32

end CommandLine

end Calculator

open Calculator CommandLine in
def main (args : List String) : IO UInt32 := do
  match Options.read args with
  | .error halt =>
    if halt = .misuse then IO.eprintln usage
    write halt.response
  | .ok o =>
    match o.expression with
    | some text => write (o.answer text)
    | none =>
      IO.print prompt
      (← IO.getStdout).flush
      match o.answerLine? (← readLine (← IO.getStdin) []) with
      | some response => write response
      | none =>
        IO.eprintln "Error: the expression is not valid UTF-8"
        return 1
