import PipeExpr.Command.Check

/-!
# Command lines

What the words after the name of the program ask for. Options may stand anywhere after the command;
after `--` every word is taken as it is.
-/

namespace PipeExpr.Command

/-- What a command line asks for. -/
inductive Request where
  | check (c : Check) (indented : Bool)
  | disassemble (source : String)
  | help

/-- How the program is used. -/
def usage : String :=
  "Usage:\n" ++
  "  check <EXPRESSION> [-c|--context <JSON>] [-p|--pretty] [--syntax-only]\n" ++
  "  disasm <EXPRESSION>\n"

/-- The words of a `check` read so far. -/
structure CheckWords where
  /-- The expression. -/
  source : Option String := none
  /-- The context. -/
  context : Option String := none
  /-- Whether the result is to be indented. -/
  indented : Bool := false
  /-- Whether the expression is only to be read. -/
  syntaxOnly : Bool := false

namespace CheckWords

/-- Takes a word as the expression, of which there is one. -/
def takeSource (w : CheckWords) (word : String) : Option CheckWords :=
  if w.source.isSome then none else some { w with source := some word }

/-- Takes further words. -/
def read (w : CheckWords) : List String → Option CheckWords
  | [] => some w
  | "--" :: rest => rest.foldlM takeSource w
  | "-p" :: rest | "--pretty" :: rest => { w with indented := true }.read rest
  | "--syntax-only" :: rest => { w with syntaxOnly := true }.read rest
  | "-c" :: text :: rest | "--context" :: text :: rest => { w with context := some text }.read rest
  | word :: rest =>
    match word.splitOn "=" with
    | "--context" :: part :: parts =>
      { w with context := some ("=".intercalate (part :: parts)) }.read rest
    | _ =>
      if word.startsWith "-" && word != "-" then none
      else match w.takeSource word with
        | some w => w.read rest
        | none => none

end CheckWords

/-- What the words after the name of the program ask for. -/
def Request.ofWords? : List String → Option Request
  | "check" :: words => do
    let w ← CheckWords.read {} words
    return check ⟨← w.source, w.context, w.syntaxOnly⟩ w.indented
  | ["disasm", "--", source] => some (disassemble source)
  | ["disasm", source] =>
    if source.startsWith "-" && source != "-" then none else some (disassemble source)
  | ["help"] | ["-h"] | ["--help"] => some help
  | _ => none

end PipeExpr.Command
