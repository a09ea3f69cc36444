/-!
# The operations of the stack machine

An instruction is one opcode byte followed by its operands. This module fixes, for each operation,
the byte that stands for it and the widths of its operands; bytes and order are part of the
format and never change.
-/

namespace PipeExpr

/-- The operations. -/
inductive Opcode where
  /-- Push the constant with a given index. -/
  | constant
  /-- Push a context variable, under the given flags. -/
  | loadVar
  /-- Push a pipe local. -/
  | loadLocal
  /-- Bind a pipe local to the top of the stack, which stays. -/
  | storeLocal
  /-- Drop the top of the stack. -/
  | pop
  | add | sub | mul | div | mod | pow
  | bitAnd | bitOr | bitXor
  /-- Complement the integer on top of the stack. -/
  | bitNot
  | shiftLeft | shiftRight
  | negate | not
  | equal | notEqual | less | greater | lessEqual | greaterEqual
  /-- Conjunction of two values as booleans. -/
  | and
  /-- Disjunction of two values as booleans. -/
  | or
  /-- Go to a target. -/
  | jump
  /-- Pop, and go to a target if the value was falsy. -/
  | jumpIfFalse
  /-- Over a falsy top, replace it by `false` and go to a target. -/
  | andShortCircuit
  /-- Over a truthy top, replace it by `true` and go to a target. -/
  | orShortCircuit
  /-- Over a top that is not null go to a target; a null top is dropped. -/
  | jumpIfNotNull
  /-- Pop a number of values into an array. -/
  | array
  /-- Pop a number of key and value pairs into an object. -/
  | object
  /-- Pop an index and a target, and push the element. -/
  | index
  /-- Pop step, end, start and target, and push the part. -/
  | slice
  /-- Call a function with a number of arguments. -/
  | call
  /-- Run a block through a pipe handler. -/
  | pipe
  deriving DecidableEq, Repr, Inhabited

namespace Opcode

/-- All operations, by ascending byte. -/
def all : List Opcode :=
  [constant, loadVar, loadLocal, storeLocal, pop,
   add, sub, mul, div, mod, pow,
   bitAnd, bitOr, bitXor, bitNot, shiftLeft, shiftRight,
   negate, not,
   equal, notEqual, less, greater, lessEqual, greaterEqual,
   and, or,
   jump, jumpIfFalse, andShortCircuit, orShortCircuit, jumpIfNotNull,
   array, object, index, slice,
   call, pipe]

/-- The byte that stands for an operation. -/
def byte : Opcode → UInt8
  | constant => 0x00 | loadVar => 0x01 | loadLocal => 0x02 | storeLocal => 0x03 | pop => 0x04
  | add => 0x10 | sub => 0x11 | mul => 0x12 | div => 0x13 | mod => 0x14 | pow => 0x15
  | bitAnd => 0x20 | bitOr => 0x21 | bitXor => 0x22 | bitNot => 0x23
  | shiftLeft => 0x24 | shiftRight => 0x25
  | negate => 0x30 | not => 0x31
  | equal => 0x40 | notEqual => 0x41 | less => 0x42 | greater => 0x43
  | lessEqual => 0x44 | greaterEqual => 0x45
  | and => 0x50 | or => 0x51
  | jump => 0x60 | jumpIfFalse => 0x61 | andShortCircuit => 0x62 | orShortCircuit => 0x63
  | jumpIfNotNull => 0x64
  | array => 0x70 | object => 0x71 | index => 0x72 | slice => 0x73
  | call => 0x80 | pipe => 0x90

/-- The operation that a byte stands for. -/
def ofByte? (b : UInt8) : Option Opcode := all.find? (·.byte == b)

/-- The name of an operation in listings and messages. -/
def name : Opcode → String
  | constant => "Constant" | loadVar => "LoadVar" | loadLocal => "LoadLocal"
  | storeLocal => "StoreLocal" | pop => "Pop"
  | add => "Add" | sub => "Sub" | mul => "Mul" | div => "Div" | mod => "Mod" | pow => "Pow"
  | bitAnd => "BitAnd" | bitOr => "BitOr" | bitXor => "BitXor" | bitNot => "BitNot"
  | shiftLeft => "ShiftLeft" | shiftRight => "ShiftRight"
  | negate => "Negate" | not => "Not"
  | equal => "Equal" | notEqual => "NotEqual" | less => "Less" | greater => "Greater"
  | lessEqual => "LessEqual" | greaterEqual => "GreaterEqual"
  | and => "And" | or => "Or"
  | jump => "Jump" | jumpIfFalse => "JumpIfFalse" | andShortCircuit => "AndShortCircuit"
  | orShortCircuit => "OrShortCircuit" | jumpIfNotNull => "JumpIfNotNull"
  | array => "Array" | object => "Object" | index => "Index" | slice => "Slice"
  | call => "Call" | pipe => "Pipe"

/-- The operation with a given name. -/
def ofName? (s : String) : Option Opcode := all.find? (·.name = s)

/-- The widths of the operands in bytes, in order. -/
def widths : Opcode → List Nat
  | constant | loadLocal | storeLocal => [2]
  | loadVar => [2, 1]
  | jump | jumpIfFalse | andShortCircuit | orShortCircuit | jumpIfNotNull => [2]
  | array | object => [2]
  | index | slice => [1]
  | call => [2, 2]
  | pipe => [2, 2, 2]
  | _ => []

/-- The size of an encoded instruction, the opcode byte included. -/
def encodedLength (op : Opcode) : Nat := 1 + op.widths.foldr (· + ·) 0

theorem encodedLength_pos (op : Opcode) : 0 < op.encodedLength := by
  simp only [encodedLength]
  omega

/-- Every byte written for an operation is read as this operation. -/
@[simp] theorem ofByte?_byte (op : Opcode) : ofByte? op.byte = some op := by
  cases op <;> rfl

/-- A byte read as an operation is the one written for it. -/
theorem byte_eq_of_ofByte? {b : UInt8} {op : Opcode} (h : ofByte? b = some op) : op.byte = b := by
  have := List.find?_some h
  simpa using this

end Opcode

/-- The largest operand of two bytes, which bounds tables, counts and jump targets. -/
def maxOperand : Nat := 0xFFFF

/-- Access flags, as bits of an operand. -/
structure AccessFlags where
  /-- A null target gives null, and so does a position out of range. -/
  optional : Bool
  /-- What is missing gives null: the access stands directly left of `??`. -/
  soft : Bool
  deriving DecidableEq, Repr, Inhabited

namespace AccessFlags

/-- No flag at all. -/
def none : AccessFlags := ⟨false, false⟩

/-- The flags as an operand. -/
def toNat (f : AccessFlags) : Nat := (if f.optional then 1 else 0) + (if f.soft then 2 else 0)

/-- The flags in an operand; other bits have no meaning. -/
def ofNat (n : Nat) : AccessFlags := ⟨n % 2 = 1, n / 2 % 2 = 1⟩

@[simp] theorem ofNat_toNat (f : AccessFlags) : ofNat f.toNat = f := by
  rcases f with ⟨a, b⟩
  cases a <;> cases b <;> rfl

end AccessFlags

/-- The alias operand that stands for "no alias". -/
def noAlias : Nat := 0xFFFF

end PipeExpr
