import PipeExpr.Document.Bridge
import PipeExpr.Document.Reader
import PipeExpr.Document.Writer
import PipeExpr.Evaluate
import PipeExpr.Text.Search

/-!
# Checking and listing expressions

The two commands: `check` evaluates an expression against a context that is given as a document, and
`disassemble` shows the program that an expression compiles to.

**Order of errors.** The expression is read before the context, and the context before the
expression is compiled; so of an ill-formed expression and an ill-formed context the first is
reported.
-/

namespace PipeExpr.Command

/-- Why a command fails. -/
inductive CommandError where
  | evaluation (error : EvaluationError)
  /-- The context is not the text of a document. -/
  | invalidDocument
  /-- The context is neither an object nor null. -/
  | contextNotObject

/-- The text of an error; an error of a run shows its category. -/
def CommandError.message : CommandError → String
  | evaluation (.run e) => "runtime error (" ++ e.category.name ++ "): " ++ e.message
  | evaluation e => e.message
  | invalidDocument => "invalid JSON context"
  | contextNotObject => "context must be a JSON object"

/-- What `check` is to do. -/
structure Check where
  /-- The expression. -/
  source : String
  /-- The text of the context; a blank one counts as none. -/
  context : Option String
  /-- Whether the expression is only read. -/
  syntaxOnly : Bool

/-- What `check` has found. -/
inductive Outcome where
  | valid
  | value (d : Document)

/-- The result as text, in the indented layout if so asked. -/
def Outcome.text (indented : Bool) : Outcome → String
  | valid => "Syntax is valid"
  | value d => if indented then d.indented else d.compact

/-- The variables in the text of a context. -/
def readContext (text : Option String) : Except CommandError (Fields Value) :=
  match text with
  | none => return []
  | some text =>
    if (Text.trim text).isEmpty then return []
    else match Document.ofText? text with
      | none => throw .invalidDocument
      | some d => match d.toContext? with
        | none => throw .contextNotObject
        | some context => return context

/-- Reads and evaluates an expression. -/
def Check.run (c : Check) : Except CommandError Outcome := do
  let e ← (parseSource c.source).mapError .evaluation
  if c.syntaxOnly then return .valid
  else
    let context ← readContext c.context
    let p ← (compileExpr e).mapError .evaluation
    let v ← (runProgram p context).mapError .evaluation
    return .value (.ofValue v)

/-- The listing of the program that an expression compiles to. -/
def disassemble (source : String) : Except CommandError String := do
  let e ← (parseSource source).mapError .evaluation
  let p ← (compileExpr e).mapError .evaluation
  return p.listing

end PipeExpr.Command
