import PipeExpr.Machine.Error

/-!
# Operators on values

Arithmetic is that of doubles, except that division and remainder by zero are errors. The bitwise
operators work on 64-bit integers in two's complement and accept numbers that are such integers
exactly. Text can be joined and compared, and everything can be compared with null for equality.
-/

namespace PipeExpr

namespace Operator

/-- The integer that a number is, if it is one of 64 bits. -/
def exactInt64? (x : Float) : Option Int :=
  (Double.toInt? x).filter fun n => Double.leastInt64 ≤ n && n ≤ Double.greatestInt64

/-- The error that an operator does not apply to two values. -/
def mismatch (op : Opcode) (left right : Value) : RunError :=
  .typeMismatch op left.kind right.kind

/-- An operand of a bitwise operator between two values. -/
def integerOperand (op : Opcode) (left right v : Value) : Except RunError Int :=
  match v with
  | .number x =>
    match exactInt64? x with
    | some n => .ok n
    | none => .error (.bitwiseNonInteger op)
  | _ => .error (mismatch op left right)

/-- A 64-bit integer as a number. -/
def ofInt64 (n : Int64) : Value := .number (Double.ofInt n.toInt)

/-- Addition of numbers, joining of texts. -/
def add (left right : Value) : Except RunError Value :=
  match left, right with
  | .number x, .number y => .ok (.number (x + y))
  | .string s, .string t => .ok (.string (s ++ t))
  | _, _ => .error (mismatch .add left right)

/-- The arithmetic operators on two numbers. -/
def arithmetic (op : Opcode) (x y : Float) : Except RunError Float :=
  match op with
  | .sub => .ok (x - y)
  | .mul => .ok (x * y)
  | .div => if y == 0.0 then .error .divisionByZero else .ok (x / y)
  | .mod => if y == 0.0 then .error .moduloByZero else .ok (Double.remainder x y)
  | .pow => .ok (Float.pow x y)
  | _ => .error (.malformed (.notBinary op))

/-- A shift by an amount below the width of a word. -/
def shift (op : Opcode) (n amount : Int) : Except RunError Int64 :=
  if amount < 0 ∨ 64 ≤ amount then .error (.shiftOutOfRange amount)
  else
    let word := Int64.ofInt n
    let places := Int64.ofInt amount
    .ok (if op = .shiftLeft then word <<< places else word >>> places)

/-- The bitwise operators on two integers. -/
def bitwise (op : Opcode) (m n : Int) : Except RunError Int64 :=
  match op with
  | .bitAnd => .ok (Int64.ofInt m &&& Int64.ofInt n)
  | .bitOr => .ok (Int64.ofInt m ||| Int64.ofInt n)
  | .bitXor => .ok (Int64.ofInt m ^^^ Int64.ofInt n)
  | _ => shift op m n

/-- The binary operators that always take both operands. -/
def binary (op : Opcode) (left right : Value) : Except RunError Value :=
  match op with
  | .add => add left right
  | .sub | .mul | .div | .mod | .pow =>
    match left, right with
    | .number x, .number y => .number <$> arithmetic op x y
    | _, _ => .error (mismatch op left right)
  | .bitAnd | .bitOr | .bitXor | .shiftLeft | .shiftRight => do
    let m ← integerOperand op left right left
    let n ← integerOperand op left right right
    ofInt64 <$> bitwise op m n
  | _ => .error (.malformed (.notBinary op))

/-- The prefix operators. -/
def unary (op : Opcode) (operand : Value) : Except RunError Value :=
  match op, operand with
  | .not, v => .ok (.boolean !v.isTruthy)
  | .negate, .number x => .ok (.number (-x))
  | .bitNot, .number x =>
    match exactInt64? x with
    | some n => .ok (ofInt64 (~~~ Int64.ofInt n))
    | none => .error (.bitwiseNonInteger .bitNot)
  | .negate, v | .bitNot, v => .error (.unaryTypeMismatch op v.kind)
  | _, _ => .error (.malformed (.notUnary op))

/-- Equality in the language: null equals only null and can be compared with anything, other values
must be of one family. -/
def equals (op : Opcode) (left right : Value) : Except RunError Bool :=
  if left.isNull || right.isNull then .ok (left.isNull && right.isNull)
  else if left.kind = right.kind then .ok (left.equal right)
  else .error (mismatch op left right)

/-- The order of two numbers under a comparison; with NaN nothing holds. -/
def compareNumbers (op : Opcode) (x y : Float) : Bool :=
  match op with
  | .less => x < y
  | .greater => y < x
  | .lessEqual => x ≤ y
  | _ => y ≤ x

/-- The order of two texts, by code points, under a comparison. -/
def compareStrings (op : Opcode) (s t : String) : Bool :=
  match op with
  | .less => s < t
  | .greater => t < s
  | .lessEqual => s ≤ t
  | _ => t ≤ s

/-- The comparisons. -/
def compare (op : Opcode) (left right : Value) : Except RunError Bool :=
  match op with
  | .equal => equals op left right
  | .notEqual => (! ·) <$> equals op left right
  | .less | .greater | .lessEqual | .greaterEqual =>
    match left, right with
    | .number x, .number y => .ok (compareNumbers op x y)
    | .string s, .string t => .ok (compareStrings op s t)
    | _, _ => .error (mismatch op left right)
  | _ => .error (.malformed (.notComparison op))

end Operator

end PipeExpr
