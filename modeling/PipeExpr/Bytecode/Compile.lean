import Std.Data.HashMap
import PipeExpr.Bytecode.Program
import PipeExpr.Expr.Basic

/-!
# From expressions to programs

**Code is a value.** The code of an expression is a list of instructions that, run on any stack,
leaves one value more on it. Jump targets are byte offsets in the stream, so the code depends on the
offset where it starts; since sizes are known, every target is computed where it is needed and
nothing is patched afterwards.

**Tables grow along the way.** Each literal and each use of a name takes a constant of its own, each
distinct context variable one slot. Indices, counts and targets have two bytes, and what does not
fit is an error, found in the order in which the code is written.

**Objects are sorted.** Entries are compiled in ascending order of their keys. Equal keys keep their
order, so the last one decides.
-/

namespace PipeExpr

/-- Why an expression has no program. -/
inductive CompileError where
  | invalidCallee (position : Position)
  | tooManyConstants (position : Position)
  | tooManyVariables (position : Position)
  | tooManyElements (position : Position) (count : Nat)
  | tooManyBlocks (position : Position)
  | nestedPipe (position : Position)
  | nestingTooDeep (position : Position)
  | encode (error : EncodeError)
  deriving DecidableEq, Repr

/-- How deep an expression may nest. -/
def maxNesting : Nat := 1024

namespace CompileError

/-- The text of an error. -/
def message : CompileError → String
  | invalidCallee p => s!"{p.text}: only named functions can be called"
  | tooManyConstants p => s!"{p.text}: constant pool is full ({maxOperand} entries)"
  | tooManyVariables p => s!"{p.text}: too many context variables (limit {maxOperand})"
  | tooManyElements p count => s!"{p.text}: {count} elements exceed the limit of {maxOperand}"
  | tooManyBlocks p => s!"{p.text}: too many pipe stages (limit {maxOperand})"
  | nestedPipe p => s!"{p.text}: pipe expressions are only allowed at the top level"
  | nestingTooDeep p => s!"{p.text}: expression nested deeper than {maxNesting} levels"
  | encode e => "bytecode encoding failed: " ++ e.message

end CompileError

/-! ## Tables -/

/-- Distinct names in the order in which they first came up. -/
structure NameTable where
  /-- The names. -/
  names : Array String
  /-- The place of every name among them. -/
  slots : Std.HashMap String Nat

namespace NameTable

/-- The table without names. -/
def empty : NameTable := ⟨#[], ∅⟩

/-- The slot of a name, which is added if it is new. -/
def slot (t : NameTable) (name : String) : Nat × NameTable :=
  match t.slots[name]? with
  | some n => (n, t)
  | none => (t.names.size, ⟨t.names.push name, t.slots.insert name t.names.size⟩)

end NameTable

/-- The tables of a program under way. -/
structure Tables where
  /-- The constants. -/
  constants : Array Value
  /-- The context variables. -/
  contextVars : NameTable

/-- A step of compilation: it adds to the tables or fails. -/
abbrev Compile (α : Type) := StateT Tables (Except CompileError) α

/-- A row of instructions. -/
abbrev Assembly := Array Instruction

namespace Assembly

/-- The size of a row in bytes. -/
def size (code : Assembly) : Nat := code.foldl (fun n i => n + i.length) 0

/-- The stream of a row. -/
def stream (code : Assembly) : Code := code.foldl (fun out i => out ++ i.bytes.toArray) #[]

end Assembly

namespace Compile

/-! ## Instructions -/

/-- Adds a constant and gives its index. -/
def constantIndex (v : Value) (position : Position) : Compile Nat := do
  let t ← get
  if t.constants.size ≥ maxOperand then throw (.tooManyConstants position)
  else
    set { t with constants := t.constants.push v }
    return t.constants.size

/-- A single instruction, if it can be written. -/
def emit (op : Opcode) (operands : List Nat) : Compile Assembly :=
  match Instruction.encode ⟨op, operands⟩ with
  | .error e => throw (.encode e)
  | .ok _ => return #[⟨op, operands⟩]

/-- Code that pushes a constant. -/
def constant (v : Value) (position : Position) : Compile Assembly := do
  emit .constant [← constantIndex v position]

/-- Code that pushes a variable: a local by its name, a context variable by its slot. -/
def reference (name : String) (flags : AccessFlags) (position : Position) : Compile Assembly := do
  if isLocalName name then emit .loadLocal [← constantIndex (.string name) position]
  else
    let t ← get
    let (slot, contextVars) := t.contextVars.slot name
    set { t with contextVars }
    if slot ≥ maxOperand then throw (.tooManyVariables position)
    else emit .loadVar [slot, flags.toNat]

/-- A number of elements, if it can be written. -/
def count (n : Nat) (position : Position) : Compile Nat :=
  if n > maxOperand then throw (.tooManyElements position n) else return n

/-- The depth of the parts of a node at a given depth. The softened operand of `??` does not count
as a level of its own. -/
def deeper (soft : Bool) (depth : Nat) (position : Position) : Compile Nat :=
  if soft then return depth
  else if depth ≥ maxNesting then throw (.nestingTooDeep position)
  else return depth + 1

/-- The size of a jump, which does not depend on its target. -/
def jumpSize : Nat := Opcode.jump.encodedLength

/-- The operation of a prefix operator. -/
def unaryOpcode : UnaryOp → Opcode
  | .negate => .negate
  | .not => .not
  | .bitNot => .bitNot

/-- How a binary operator is compiled. -/
inductive Strategy where
  /-- Both operands, then an operation. -/
  | strict (op : Opcode)
  /-- The left operand, a jump if it decides, the right operand and an operation for both. -/
  | shortCircuit (decide combine : Opcode)
  /-- The softened left operand, and the right one if that is null. -/
  | coalesce

/-- How each binary operator is compiled. -/
def strategy : BinaryOp → Strategy
  | .add => .strict .add
  | .subtract => .strict .sub
  | .multiply => .strict .mul
  | .divide => .strict .div
  | .modulo => .strict .mod
  | .power => .strict .pow
  | .bitAnd => .strict .bitAnd
  | .bitOr => .strict .bitOr
  | .bitXor => .strict .bitXor
  | .shiftLeft => .strict .shiftLeft
  | .shiftRight => .strict .shiftRight
  | .equal => .strict .equal
  | .notEqual => .strict .notEqual
  | .lessThan => .strict .less
  | .greaterThan => .strict .greater
  | .lessEqual => .strict .lessEqual
  | .greaterEqual => .strict .greaterEqual
  | .and => .shortCircuit .andShortCircuit .and
  | .or => .shortCircuit .orShortCircuit .or
  | .nullCoalesce => .coalesce

/-- The function that a call names: a plain variable that is no local. -/
def calleeName? : Expr → Option String
  | .reference _ name false => if isLocalName name then none else some name
  | _ => none

/-- A property as a value. -/
def propertyValue : Property → Value
  | .name s => .string s
  | .position i => .number (Double.ofInt i)

/-! ## Expressions -/

/-- Code that is written at a given depth and offset. -/
abbrev Writer := Nat → Nat → Compile Assembly

/-- Orders entries by their names; equal names keep their order. -/
def sortEntries {α : Type} (entries : List (String × α)) : List (String × α) :=
  entries.mergeSort fun a b => decide (a.1 ≤ b.1)

/-- Code for the entries of an object behind the code of those before them. -/
def entriesCode (position : Position) (depth offset : Nat) (done : Assembly) :
    List (String × Writer) → Compile Assembly
  | [] => return done
  | (key, write) :: rest => do
    let keyCode ← constant (.string key) position
    let valueCode ← write depth (offset + keyCode.size)
    entriesCode position depth (offset + keyCode.size + valueCode.size)
      (done ++ keyCode ++ valueCode) rest

mutual

/-- The code of an expression that starts at `offset`, for a node at `depth`. The left operand of
`??` is `soft`: its own access, if it is one, gives null for what is missing. -/
def code : Expr → Bool → Writer
  | .number p x, _, depth, _ => do
    let _ ← deeper false depth p
    constant (.number x) p
  | .string p s _, _, depth, _ => do
    let _ ← deeper false depth p
    constant (.string s) p
  | .boolean p b, _, depth, _ => do
    let _ ← deeper false depth p
    constant (.boolean b) p
  | .null p, _, depth, _ => do
    let _ ← deeper false depth p
    constant .null p
  | .reference p name optional, soft, depth, _ => do
    let soft := soft && !isLocalName name
    let _ ← deeper soft depth p
    reference name ⟨optional, soft⟩ p
  | .unary p op operand, _, depth, offset => do
    let depth ← deeper false depth p
    let operand ← code operand false depth offset
    return operand ++ (← emit (unaryOpcode op) [])
  | .binary p op left right, _, depth, offset => do
    let depth ← deeper false depth p
    match strategy op with
    | .strict op =>
      let left ← code left false depth offset
      let right ← code right false depth (offset + left.size)
      return left ++ right ++ (← emit op [])
    | .shortCircuit decide combine =>
      let left ← code left false depth offset
      let right ← code right false depth (offset + left.size + jumpSize)
      let tail := right ++ (← emit combine [])
      return left ++ (← emit decide [offset + left.size + jumpSize + tail.size]) ++ tail
    | .coalesce =>
      let left ← code left true depth offset
      let right ← code right false depth (offset + left.size + jumpSize)
      return left ++ (← emit .jumpIfNotNull [offset + left.size + jumpSize + right.size]) ++ right
  | .conditional p condition consequent alternate, _, depth, offset => do
    let depth ← deeper false depth p
    let condition ← code condition false depth offset
    let first := offset + condition.size + jumpSize
    let consequent ← code consequent false depth first
    let second := first + consequent.size + jumpSize
    let toAlternate ← emit .jumpIfFalse [second]
    let alternate ← code alternate false depth second
    let toEnd ← emit .jump [second + alternate.size]
    return condition ++ toAlternate ++ consequent ++ toEnd ++ alternate
  | .array p items, _, depth, offset => do
    let depth ← deeper false depth p
    let n ← count items.length p
    let items ← itemsCode items depth offset #[]
    return items ++ (← emit .array [n])
  | .object p entries, _, depth, offset => do
    let depth ← deeper false depth p
    let n ← count entries.length p
    let entries ← entriesCode p depth offset #[] (sortEntries (entryWriters entries))
    return entries ++ (← emit .object [n])
  | .call p callee arguments, _, depth, offset => do
    let depth ← deeper false depth p
    match calleeName? callee with
    | none => throw (.invalidCallee p)
    | some name =>
      let n ← count arguments.length p
      let arguments ← itemsCode arguments depth offset #[]
      return arguments ++ (← emit .call [← constantIndex (.string name) p, n])
  | .member p target property optional, soft, depth, offset => do
    let depth ← deeper soft depth p
    let target ← code target false depth offset
    let key ← constant (propertyValue property) p
    return target ++ key ++ (← emit .index [(AccessFlags.mk optional soft).toNat])
  | .index p target key optional, soft, depth, offset => do
    let depth ← deeper soft depth p
    let target ← code target false depth offset
    let key ← code key false depth (offset + target.size)
    return target ++ key ++ (← emit .index [(AccessFlags.mk optional soft).toNat])
  | .slice p target start stop step optional, _, depth, offset => do
    let depth ← deeper false depth p
    let target ← code target false depth offset
    let start ← boundCode start p depth (offset + target.size)
    let front := target ++ start
    let stop ← boundCode stop p depth (offset + front.size)
    let front := front ++ stop
    let step ← boundCode step p depth (offset + front.size)
    return front ++ step ++ (← emit .slice [(AccessFlags.mk optional false).toNat])
  | .pipe p _, _, depth, _ => do
    let _ ← deeper false depth p
    throw (.nestedPipe p)

/-- The code of expressions one after the other, behind the code of those before them. -/
def itemsCode : List Expr → Nat → Nat → Assembly → Compile Assembly
  | [], _, _, done => return done
  | e :: rest, depth, offset, done => do
    let item ← code e false depth offset
    itemsCode rest depth (offset + item.size) (done ++ item)

/-- What writes the code of each entry of an object. -/
def entryWriters : List (String × Expr) → List (String × Writer)
  | [] => []
  | (key, e) :: rest => (key, code e false) :: entryWriters rest

/-- The code of a bound of a slice; an omitted bound is null. -/
def boundCode : Option Expr → Position → Writer
  | none, p, _, _ => constant .null p
  | some e, _, depth, offset => code e false depth offset

end

/-! ## Programs -/

/-- Code that binds a result to an alias. -/
def bindAlias (name : Option String) (position : Position) : Compile Assembly :=
  match name with
  | some name => do emit .storeLocal [← constantIndex (.string name) position]
  | none => return #[]

/-- The operand for an alias. -/
def aliasOperand (name : Option String) (position : Position) : Compile Nat :=
  match name with
  | some name => constantIndex (.string name) position
  | none => return noAlias

/-- The code of the block of a stage, behind `k` others. -/
def blockCode (k : Nat) (stage : Stage Expr) : Compile Assembly :=
  if k ≥ maxOperand then throw (.tooManyBlocks stage.position) else code stage.body false 0 0

/-- The stages of a chain behind its head: the code behind what is written already, and their
blocks. -/
def stagesCode (done : Assembly) (blocks : Array Code) :
    List (Stage Expr) → Compile (Assembly × Array Code)
  | [] => return (done, blocks)
  | stage :: rest => do
    let handler ← constantIndex (.string stage.handler) stage.position
    let bound ← aliasOperand stage.boundAs stage.position
    let block ← blockCode blocks.size stage
    let run ← emit .pipe [handler, bound, blocks.size]
    stagesCode (done ++ run) (blocks.push block.stream) rest

/-- The main stream and the blocks of a program. -/
def streams : Expr → Compile (Assembly × Array Code)
  | .pipe p [] => return (← constant .null p, #[])
  | .pipe _ (head :: rest) => do
    let main ← code head.body false 0 0
    let binding ← bindAlias head.boundAs head.position
    stagesCode (main ++ binding) #[] rest
  | e => return (← code e false 0 0, #[])

end Compile

/-- Compiles an expression. -/
def Expr.compile (e : Expr) : Except CompileError Program :=
  match (Compile.streams e).run ⟨#[], .empty⟩ with
  | .error err => .error err
  | .ok ((main, blocks), tables) =>
    .ok ⟨main.stream, tables.constants, tables.contextVars.names, blocks⟩

end PipeExpr
