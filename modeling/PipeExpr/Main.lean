import PipeExpr.Command.Line

/-!
# The program

Reads the command line, and the context from the standard input where it is needed and not given.
-/

open PipeExpr.Command

/-- The context of a check: the given one or, unless a person is typing, the standard input. -/
def contextText (c : Check) : IO (Option String) := do
  let input ← IO.getStdin
  if c.context.isSome || c.syntaxOnly || (← input.isTty) then return c.context
  else
    let mut text := ""
    let mut line ← input.getLine
    while !line.isEmpty do
      text := text ++ line
      line ← input.getLine
    return some text

/-- Prints a result, or an error to the standard error. -/
def report (result : Except CommandError String) : IO UInt32 := do
  match result with
  | .ok text =>
    IO.print text
    return 0
  | .error e =>
    IO.eprintln e.message
    return 1

def main (words : List String) : IO UInt32 := do
  match Request.ofWords? words with
  | none =>
    IO.eprint usage
    return 2
  | some .help =>
    IO.print usage
    return 0
  | some (.disassemble source) => report (disassemble source)
  | some (.check c indented) =>
    let c := { c with context := ← contextText c }
    report (c.run.map fun outcome => outcome.text indented ++ "\n")
