import PipeExpr.Machine.Access
import PipeExpr.Machine.Operator
import PipeExpr.Machine.Pipe

/-!
# Running programs

**One instruction at a time.** `step` says what an instruction does to the stack and the scopes, and
where the stream goes on; `runFrom` repeats it up to the end of the stream. A stream runs in a
frame: it never looks below the height at which it started, and whatever happens it leaves the stack
at that height, with its value taken off.

**Blocks run inside the machine.** A pipe instruction gives its input to a handler and answers the
handler's questions: for each one the block runs in a frame above the current stack, under a scope
of its own that is dropped afterwards.

**Fuel.** Jumps of programs that were not compiled may lead back, so a run is bounded by a number of
turns. A run that uses them up ends in `Halt.outOfFuel`, which no handler can catch. Compiled
streams only go forward, and the fuel of `Program.run` is more than they can use.
-/

namespace PipeExpr

namespace Machine

/-- What stays the same during a run. -/
structure Env where
  /-- The functions and handlers in reach. -/
  library : Library
  /-- How many values the stack may hold. -/
  stackSize : Nat
  /-- The program. -/
  program : Program
  /-- The variables of the context. -/
  context : Fields Value

/-- The changing part of a machine. -/
structure State where
  /-- The operands, the top one last. -/
  stack : Array Value
  /-- The scopes of the blocks under way, the innermost one first. -/
  scopes : List (Fields Value)
  /-- The scope below all blocks, which holds the aliases of the chain. -/
  base : Fields Value
  deriving Inhabited

/-- The state at the start of a run. -/
def State.initial : State := ⟨#[], [], []⟩

/-- Why a run ends without a value. -/
inductive Halt where
  | error (e : RunError)
  /-- The bound on the number of turns was reached. -/
  | outOfFuel

end Machine

/-- A part of a run: it changes the state of the machine, and gives a result or ends the run. -/
abbrev Machine (α : Type) := ExceptT Machine.Halt (StateM Machine.State) α

namespace Machine

/-- Ends the run with an error. -/
def fail {α : Type} (e : RunError) : Machine α := throw (.error e)

/-- Takes a result that may be an error. -/
def lift {α : Type} : Except RunError α → Machine α
  | .ok x => pure x
  | .error e => fail e

/-- Takes a result that may be missing, or else ends the run. -/
def require {α : Type} (x : Option α) (e : RunError) : Machine α :=
  match x with
  | some x => pure x
  | none => fail e

/-! ## The stack -/

/-- Puts a value on the stack if there is room. -/
def push (env : Env) (v : Value) : Machine Unit := do
  if (← get).stack.size ≥ env.stackSize then fail (.stackOverflow env.stackSize)
  else modify fun s => { s with stack := s.stack.push v }

/-- The top of the stack, if it stands above the base of the frame. -/
def peek (base : Nat) : Machine Value := do
  let s ← get
  if s.stack.size ≤ base then fail .stackUnderflow
  else require s.stack.back? .stackUnderflow

/-- Takes the top off the stack, if it stands above the base of the frame. -/
def pop (base : Nat) : Machine Value := do
  let v ← peek base
  modify fun s => { s with stack := s.stack.pop }
  return v

/-- Takes a number of values off the stack, in the order in which they were put there. -/
def popMany (base n : Nat) : Machine (List Value) := do
  let size := (← get).stack.size
  if size < base + n then fail .stackUnderflow
  else
    let values := ((← get).stack.extract (size - n) size).toList
    modify fun s => { s with stack := s.stack.shrink (size - n) }
    return values

/-! ## Names and jumps -/

/-- The name at an index of the constants. -/
def nameOperand (env : Env) (index : Nat) : Machine String :=
  require (env.program.nameAt? index) (.malformed (.notAName index))

/-- The target of a jump in a stream. -/
def jumpTarget (code : Code) (target : Nat) : Machine Nat :=
  if target > code.size then fail (.malformed (.jumpPastEnd target)) else return target

/-- The value of a local: the innermost scope that binds it counts. -/
def lookupLocal (s : State) (name : String) : Option Value :=
  match s.scopes.findSome? (Fields.get? · name) with
  | some v => some v
  | none => s.base.get? name

/-- Binds a local in the innermost scope. -/
def bindLocal (s : State) (name : String) (v : Value) : State :=
  match s.scopes with
  | scope :: rest => { s with scopes := Fields.insert scope name v :: rest }
  | [] => { s with base := s.base.insert name v }

/-- The object of a row of keys and values that alternate. Keys become text, and of equal ones the
last value counts. -/
def objectOf (flat : List Value) : Value :=
  .object (Fields.ofList (pairs flat))
where
  /-- The row two by two. -/
  pairs : List Value → List (String × Value)
    | key :: v :: rest => (key.asText, v) :: pairs rest
    | _ => []

/-! ## Pipes -/

/-- How the block of a stage is evaluated. -/
abbrev BlockRunner := Code → Machine Value

/-- Runs a block under bindings in a scope of its own, which is dropped whatever happens. -/
def inScope (bindings : Fields Value) (run : Machine Value) : Machine Value := fun s =>
  let (result, s) := run { s with scopes := Fields.ofList bindings :: s.scopes }
  (result, { s with scopes := s.scopes.tail })

/-- Answers the questions of a handler. -/
def answer (evalBlock : Machine Value) : PipeProgram → Machine Value
  | .done outcome => lift outcome
  | .eval bindings next => fun s =>
    match inScope bindings evalBlock s with
    | (.ok v, s) => answer evalBlock (next (.ok v)) s
    | (.error (.error e), s) => answer evalBlock (next (.error e)) s
    | (.error .outOfFuel, s) => (.error .outOfFuel, s)

/-- Runs a stage: its handler gets the top of the stack, and the result is bound to the alias if
there is one. -/
def stage (env : Env) (runBlock : BlockRunner) (base : Nat) (i : Instruction) : Machine Unit := do
  let name ← nameOperand env (i.slot 0)
  let handler ← require (env.library.handlers.get? name) (.unknownPipe name)
  let block ← require env.program.blocks[i.slot 2]? (.malformed (.noBlock (i.slot 2)))
  let input ← pop base
  let output ← answer (runBlock block) (handler name input)
  if i.slot 1 ≠ noAlias then
    let bound ← nameOperand env (i.slot 1)
    modify fun s => { s with base := s.base.insert bound output }
  push env output

/-! ## One instruction -/

/-- Carries out an instruction of a stream and gives the offset where the stream goes on; `next` is
the one behind the instruction. -/
def step (env : Env) (runBlock : BlockRunner) (code : Code) (base : Nat) (i : Instruction)
    (next : Nat) : Machine Nat := do
  match i.opcode with
  | .constant =>
    push env (← require env.program.constants[i.slot 0]? (.malformed (.noConstant (i.slot 0))))
    return next
  | .loadVar =>
    let name ← require env.program.contextVars[i.slot 0]? (.malformed (.noContextName (i.slot 0)))
    let flags := AccessFlags.ofNat (i.slot 1)
    match env.context.get? name with
    | some v => push env v
    | none =>
      if flags.optional || flags.soft then push env .null else fail (.undefinedVariable name)
    return next
  | .loadLocal =>
    let name ← nameOperand env (i.slot 0)
    push env (← require (lookupLocal (← get) name) (.undefinedLocal name))
    return next
  | .storeLocal =>
    let name ← nameOperand env (i.slot 0)
    let v ← peek base
    modify fun s => bindLocal s name v
    return next
  | .pop =>
    let _ ← pop base
    return next
  | .add | .sub | .mul | .div | .mod | .pow
  | .bitAnd | .bitOr | .bitXor | .shiftLeft | .shiftRight =>
    let right ← pop base
    let left ← pop base
    push env (← lift (Operator.binary i.opcode left right))
    return next
  | .equal | .notEqual | .less | .greater | .lessEqual | .greaterEqual =>
    let right ← pop base
    let left ← pop base
    push env (.boolean (← lift (Operator.compare i.opcode left right)))
    return next
  | .negate | .not | .bitNot =>
    push env (← lift (Operator.unary i.opcode (← pop base)))
    return next
  | .and =>
    let right ← pop base
    let left ← pop base
    push env (.boolean (left.isTruthy && right.isTruthy))
    return next
  | .or =>
    let right ← pop base
    let left ← pop base
    push env (.boolean (left.isTruthy || right.isTruthy))
    return next
  | .jump => jumpTarget code (i.slot 0)
  | .jumpIfFalse =>
    let condition ← pop base
    if condition.isTruthy then return next else jumpTarget code (i.slot 0)
  | .andShortCircuit =>
    if (← peek base).isTruthy then return next
    else
      let _ ← pop base
      push env (.boolean false)
      jumpTarget code (i.slot 0)
  | .orShortCircuit =>
    if (← peek base).isTruthy then
      let _ ← pop base
      push env (.boolean true)
      jumpTarget code (i.slot 0)
    else return next
  | .jumpIfNotNull =>
    if (← peek base).isNull then
      let _ ← pop base
      return next
    else jumpTarget code (i.slot 0)
  | .array =>
    push env (.array (← popMany base (i.slot 0)))
    return next
  | .object =>
    push env (objectOf (← popMany base (i.slot 0 * 2)))
    return next
  | .index =>
    let key ← pop base
    let target ← pop base
    push env (← lift (Access.index target key (AccessFlags.ofNat (i.slot 0))))
    return next
  | .slice =>
    let stepSize ← pop base
    let stop ← pop base
    let start ← pop base
    let target ← pop base
    push env (← lift (Access.slice target start stop stepSize (AccessFlags.ofNat (i.slot 0))))
    return next
  | .call =>
    let name ← nameOperand env (i.slot 0)
    let f ← require (env.library.functions.get? name) (.unknownFunction name)
    let arguments ← popMany base (i.slot 1)
    match f arguments with
    | .ok v => push env v
    | .error e => fail (.function name e)
    return next
  | .pipe =>
    stage env runBlock base i
    return next

/-! ## Streams -/

/-- Runs a stream as a frame: by `run`, which gets the base of the frame, and then takes its one
value off. On an error the stack is cut back to the base. -/
def frame (run : Nat → Machine Unit) : Machine Value := fun s =>
  let base := s.stack.size
  let cut := fun (s : State) => { s with stack := s.stack.shrink base }
  match run base s with
  | (.error halt, s) => (.error halt, cut s)
  | (.ok (), s) =>
    match pop base s with
    | (.error halt, s) => (.error halt, s)
    | (.ok v, s) =>
      if s.stack.size = base then (.ok v, s)
      else (.error (.error (.malformed .extraValues)), cut s)

/-- Runs a stream from an offset to its end. -/
def runFrom (env : Env) : Nat → Code → Nat → Nat → Machine Unit
  | 0, _, _, _ => throw .outOfFuel
  | fuel + 1, code, base, offset => do
    if offset < code.size then
      match decodeAt code offset with
      | .error e => fail (.decode e)
      | .ok i =>
        let runBlock := fun block => frame fun base => runFrom env fuel block base 0
        let next ← step env runBlock code base i (offset + i.length)
        runFrom env fuel code base next
    else return ()

/-- Runs a stream in a frame of its own. -/
def execute (env : Env) (fuel : Nat) (code : Code) : Machine Value :=
  frame fun base => runFrom env fuel code base 0

/-- What a machine holds between two runs: its operands, the top one last, and its scopes, the
innermost one first. -/
structure Store where
  stack : Array Value
  scopes : List (Fields Value)

end Machine

/-- How many values a stack may hold if nothing else is asked for. -/
def defaultStackSize : Nat := 2048

namespace Program

/-- A bound on the turns of a run. Streams that only go forward use at most one turn for each of
their bytes; programs that go back have the constant part to themselves. -/
def fuel (p : Program) : Nat :=
  1000000000 + p.main.size + p.blocks.foldl (fun n block => n + block.size) 0

/-- Runs a program against a context. -/
def run (p : Program) (library : Library) (stackSize : Nat) (context : Fields Value) :
    Except Machine.Halt Value :=
  (Machine.execute ⟨library, stackSize, p, context⟩ p.fuel p.main .initial).1

/-- Runs a program on a machine. What the machine holds at the start is cleared, and so are all scopes
at the end; the operands stay. -/
def runOn (p : Program) (library : Library) (stackSize : Nat) (context : Fields Value)
    (_ : Machine.Store) : Except Machine.Halt Value × Machine.Store :=
  let (outcome, s) := Machine.execute ⟨library, stackSize, p, context⟩ p.fuel p.main .initial
  (outcome, ⟨s.stack, []⟩)

end Program

end PipeExpr
