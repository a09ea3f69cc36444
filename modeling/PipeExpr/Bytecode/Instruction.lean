import PipeExpr.Bytecode.Opcode

/-!
# Encoding of instructions

An instruction is written as its opcode byte and its operands, each big-endian in the width that
the operation fixes. Since the first byte decides how many follow, a stream needs no separators:
`decodeAll` cuts it into instructions from the front, and `Instruction.bytes` is its inverse.
-/

namespace PipeExpr

/-- An instruction stream. -/
abbrev Code := Array UInt8

/-- One instruction: an operation with its operands in order. -/
structure Instruction where
  /-- What to do. -/
  opcode : Opcode
  /-- The operands, as many as the operation has widths. -/
  operands : List Nat
  deriving DecidableEq, Repr, Inhabited

/-- Why an instruction has no encoding. -/
inductive EncodeError where
  | operandCount (opcode : Opcode) (expected got : Nat)
  | operandOverflow (opcode : Opcode) (value width : Nat)
  | invalidPatch (offset : Nat)
  deriving DecidableEq, Repr

/-- Why a stream cannot be read at an offset. -/
inductive DecodeError where
  | unknownOpcode (byte : UInt8) (offset : Nat)
  | truncated (opcode : Opcode) (offset : Nat)
  | outOfBounds (offset : Nat)
  deriving DecidableEq, Repr

namespace EncodeError

/-- The text of an encoding error. -/
def message : EncodeError → String
  | operandCount op expected got => s!"{op.name} expects {expected} operands, got {got}"
  | operandOverflow op value width =>
    s!"operand {value} of {op.name} does not fit in {width} byte(s)"
  | invalidPatch offset => s!"no patchable instruction at offset {offset}"

end EncodeError

/-- A byte as two lowercase hexadecimal digits. -/
def byteText (b : UInt8) : String :=
  String.ofList [Nat.digitChar (b.toNat / 16), Nat.digitChar (b.toNat % 16)]

namespace DecodeError

/-- The text of a decoding error. -/
def message : DecodeError → String
  | unknownOpcode byte offset => s!"unknown opcode 0x{byteText byte} at offset {offset}"
  | truncated op offset => s!"truncated {op.name} instruction at offset {offset}"
  | outOfBounds offset => s!"instruction offset {offset} is out of bounds"

end DecodeError

/-! ## Big-endian numbers -/

/-- The last `width` bytes of a number, most significant first. -/
def bigEndian : Nat → Nat → List UInt8
  | 0, _ => []
  | width + 1, value => UInt8.ofNat (value / Nat.pow 256 width) :: bigEndian width value

/-- The number that starts at `cursor` in `width` bytes, appended to the digits in `high`. -/
def readBigEndian (code : Code) : Nat → Nat → Nat → Option Nat
  | _, 0, high => some high
  | cursor, width + 1, high =>
    match code[cursor]? with
    | some b => readBigEndian code (cursor + 1) width (high * 256 + b.toNat)
    | none => none

/-! ## Writing -/

namespace Instruction

/-- Operand `n`, or zero where the operation has none. -/
def slot (i : Instruction) (n : Nat) : Nat := i.operands.getD n 0

/-- The encoded size. -/
def length (i : Instruction) : Nat := i.opcode.encodedLength

/-- The bytes of an instruction. An operand is cut to its width, which loses nothing if it fits. -/
def bytes (i : Instruction) : List UInt8 :=
  i.opcode.byte :: (List.zipWith bigEndian i.opcode.widths i.operands).flatten

/-- The first operand that is too large for its width. -/
def overflow? (i : Instruction) : Option (Nat × Nat) :=
  (i.operands.zip i.opcode.widths).find? fun (value, width) => value ≥ Nat.pow 256 width

/-- Encodes an instruction if it has the right number of operands and each fits its width. -/
def encode (i : Instruction) : Except EncodeError (List UInt8) :=
  let expected := i.opcode.widths.length
  if i.operands.length ≠ expected then
    .error (.operandCount i.opcode expected i.operands.length)
  else match i.overflow? with
    | some (value, width) => .error (.operandOverflow i.opcode value width)
    | none => .ok i.bytes

end Instruction

/-! ## Reading -/

/-- Reads operands of the given widths from `cursor` on. -/
def readOperands (code : Code) : Nat → List Nat → Option (List Nat)
  | _, [] => some []
  | cursor, width :: widths => do
    let value ← readBigEndian code cursor width 0
    let rest ← readOperands code (cursor + width) widths
    return value :: rest

/-- Reads the instruction at an offset. -/
def decodeAt (code : Code) (offset : Nat) : Except DecodeError Instruction :=
  match code[offset]? with
  | none => .error (.outOfBounds offset)
  | some byte =>
    match Opcode.ofByte? byte with
    | none => .error (.unknownOpcode byte offset)
    | some opcode =>
      match readOperands code (offset + 1) opcode.widths with
      | none => .error (.truncated opcode offset)
      | some operands => .ok ⟨opcode, operands⟩

/-- Reads the instructions from `offset` on, behind those already read, which stand in `done` in
reverse. Each one takes at least a byte, so the length of the stream is fuel enough. -/
def decodeFrom (code : Code) : Nat → Nat → List (Nat × Instruction) →
    Except DecodeError (List (Nat × Instruction))
  | 0, _, done => .ok done.reverse
  | fuel + 1, offset, done =>
    if offset < code.size then
      match decodeAt code offset with
      | .error e => .error e
      | .ok i => decodeFrom code fuel (offset + i.length) ((offset, i) :: done)
    else .ok done.reverse

/-- All instructions of a stream with their offsets. -/
def decodeAll (code : Code) : Except DecodeError (List (Nat × Instruction)) :=
  decodeFrom code code.size 0 []

/-! ## Patching -/

/-- Overwrites the bytes from `offset` on. -/
def overwrite (code : Code) (offset : Nat) : List UInt8 → Code
  | [] => code
  | b :: bs => overwrite (code.setIfInBounds offset b) (offset + 1) bs

/-- Replaces the only operand of the instruction at an offset, in place. The instruction is written
whole, and only when nothing can fail any more. -/
def patchInPlace (offset value : Nat) : ExceptT EncodeError (StateM Code) Unit := do
  match (← get)[offset]?.bind Opcode.ofByte? with
  | none => throw (.invalidPatch offset)
  | some opcode =>
    let bytes ← MonadExcept.ofExcept (Instruction.encode ⟨opcode, [value]⟩)
    if offset + bytes.length ≤ (← get).size then modify (overwrite · offset bytes)
    else throw (.invalidPatch offset)

/-- The stream after the only operand of the instruction at an offset was replaced. -/
def patchOperand (code : Code) (offset value : Nat) : Except EncodeError Code :=
  match patchInPlace offset value code with
  | (.ok (), patched) => .ok patched
  | (.error e, _) => .error e

end PipeExpr
