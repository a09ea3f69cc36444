import PipeExpr.Bytecode.Compile
import PipeExpr.Expr.Parser
import PipeExpr.Library.Standard
import PipeExpr.Machine.Run

/-!
# Evaluation

From a source to its value in one step: the source is read, compiled, and run against a context with
the standard library. The first stage that fails gives the error.
-/

namespace PipeExpr

/-- Why a source has no value. -/
inductive EvaluationError where
  | parse (errors : Diagnostics)
  | compile (error : CompileError)
  | run (error : RunError)
  /-- The bound on the length of a run was reached. -/
  | cutOff

namespace EvaluationError

/-- An error of a run. -/
def ofHalt : Machine.Halt → EvaluationError
  | .error e => run e
  | .outOfFuel => cutOff

/-- The text of an error. -/
def message : EvaluationError → String
  | parse errors => Diagnostics.display errors
  | compile error => "compile error: " ++ error.message
  | run error => "runtime error: " ++ error.message
  | cutOff => "runtime error: the run was cut off"

end EvaluationError

/-- Reads a source under the usual options. -/
def parseSource (source : String) : Except EvaluationError Expr :=
  (parse source {}).mapError .parse

/-- Compiles an expression. -/
def compileExpr (e : Expr) : Except EvaluationError Program := e.compile.mapError .compile

/-- Runs a program with the standard library. -/
def runProgram (p : Program) (context : Fields Value) : Except EvaluationError Value :=
  (p.run .standard defaultStackSize context).mapError .ofHalt

/-- The value of a source in a context. -/
def evaluate (source : String) (context : Fields Value) : Except EvaluationError Value := do
  runProgram (← compileExpr (← parseSource source)) context

end PipeExpr
