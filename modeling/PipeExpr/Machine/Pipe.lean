import PipeExpr.Machine.Error

/-!
# Pipe handlers

A pipe handler gets the value that flows into its stage and may evaluate the block of the stage as
often as it likes, each time under bindings of its own choice; it sees every outcome, errors
included.

**A handler is a tree of questions.** It either is done or asks for one evaluation and goes on from
the outcome. So a handler cannot touch the machine in any other way, and the machine that answers
the questions is defined apart from it.
-/

namespace PipeExpr

/-- What a handler does: it is done, or it evaluates the block under some bindings and goes on. -/
inductive PipeProgram where
  | done (outcome : Except RunError Value)
  | eval (bindings : Fields Value) (next : Except RunError Value → PipeProgram)

/-- A handler, given the name under which it is used and the input of the stage. -/
abbrev PipeHandler := String → Value → PipeProgram

namespace PipeProgram

/-- Done with a value. -/
def value (v : Value) : PipeProgram := done (.ok v)

/-- Done with an error. -/
def fail (e : RunError) : PipeProgram := done (.error e)

/-- Evaluates the block and goes on with its value; an error ends the program. -/
def evalThen (bindings : Fields Value) (next : Value → PipeProgram) : PipeProgram :=
  eval bindings fun
    | .ok v => next v
    | .error e => fail e

/-- The bindings under which an element is evaluated. -/
def itemBindings (item : Value) (index : Nat) : Fields Value :=
  [("$item", item), ("$index", .ofNat index)]

/-- Evaluates the block for an element at an index. -/
def evalItem (item : Value) (index : Nat) (next : Value → PipeProgram) : PipeProgram :=
  evalThen (itemBindings item index) next

/-- Takes the input as an array, or fails. -/
def withItems (handler : String) (input : Value) (next : List Value → PipeProgram) :
    PipeProgram :=
  match input with
  | .array items => next items
  | v => fail (.pipeInput handler v.kind)

/-- Evaluates the block for every element, in order, and goes on with the values. -/
def evalAll (items : List Value) (next : List Value → PipeProgram) : PipeProgram :=
  go items 0 []
where
  /-- The elements from an index on, behind the values so far, which stand in reverse. -/
  go : List Value → Nat → List Value → PipeProgram
    | [], _, values => next values.reverse
    | item :: rest, index, values =>
      evalItem item index fun v => go rest (index + 1) (v :: values)

/-- Evaluates the block for the elements in order up to the first whose value passes a test, and
goes on with that element. -/
def evalUntil (test : Value → Bool) (items : List Value) (next : Option Value → PipeProgram) :
    PipeProgram :=
  go items 0
where
  /-- The elements from an index on. -/
  go : List Value → Nat → PipeProgram
    | [], _ => next none
    | item :: rest, index =>
      evalItem item index fun v => if test v then next (some item) else go rest (index + 1)

end PipeProgram

namespace PipeHandler

/-- The handler of the marker without a name: the block once, with the input as `$last`. -/
def once : PipeHandler := fun _ input => .evalThen [("$last", input)] .value

/-- The values of the block for all elements. -/
def map : PipeHandler := fun handler input =>
  .withItems handler input fun items => .evalAll items fun values => .value (.array values)

end PipeHandler

/-! ## Registries -/

/-- A function that programs can call. -/
abbrev HostFunction := List Value → Except FunctionError Value

/-- The functions and pipe handlers that programs can use, by name. -/
structure Library where
  /-- The functions. -/
  functions : Fields HostFunction
  /-- The handlers. -/
  handlers : Fields PipeHandler

namespace Library

/-- The library without anything in it. -/
def empty : Library := ⟨[], []⟩

/-- Adds a function, in place of one with the same name. -/
def addFunction (l : Library) (name : String) (f : HostFunction) : Library :=
  { l with functions := l.functions.insert name f }

/-- Adds a handler, in place of one with the same name. -/
def addHandler (l : Library) (name : String) (h : PipeHandler) : Library :=
  { l with handlers := l.handlers.insert name h }

/-- The library with the two handlers that belong to the language itself. -/
def basic : Library := ⟨[], [("default", .once), ("map", .map)]⟩

/-- Names in ascending order, each quoted. -/
def namesText (names : List String) : String :=
  "[" ++ ", ".intercalate ((names.mergeSort fun a b => decide (a ≤ b)).map Text.quoted) ++ "]"

/-- The names in a library as text. -/
def text (l : Library) : String :=
  "LibContext \x7b functions: " ++ namesText l.functions.names ++ ", pipe_handlers: " ++
    namesText l.handlers.names ++ " \x7d"

end Library

end PipeExpr
