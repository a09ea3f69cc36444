import PipeExpr.Bytecode.Program

/-!
# Errors of a run

What can go wrong while a program runs, and in a function that it calls. Errors are causes; their
wording and their category are functions of the cause.
-/

namespace PipeExpr

namespace Opcode

/-- The operator that an operation computes, as messages show it. -/
def operator : Opcode → String
  | add => "+" | sub | negate => "-" | mul => "*" | div => "/" | mod => "%" | pow => "**"
  | bitAnd => "&" | bitOr => "|" | bitXor | bitNot => "~"
  | shiftLeft => "<<" | shiftRight => ">>"
  | not => "!"
  | equal => "==" | notEqual => "!=" | less => "<" | greater => ">"
  | lessEqual => "<=" | greaterEqual => ">="
  | and => "&&" | or => "||"
  | _ => "?"

end Opcode

/-! ## Functions -/

/-- How many arguments a function takes. -/
inductive Arity where
  | exactly (n : Nat)
  | between (least most : Nat)
  | atLeast (n : Nat)
  deriving DecidableEq, Repr

namespace Arity

/-- Whether a number of arguments is right. -/
def admits : Arity → Nat → Bool
  | exactly n, k => k == n
  | between least most, k => least ≤ k && k ≤ most
  | atLeast n, k => n ≤ k

/-- An arity as messages show it. -/
def text : Arity → String
  | exactly n => toString n
  | between least most => s!"{least}-{most}"
  | atLeast n => s!"at least {n}"

end Arity

/-- What an argument has to be. -/
inductive Requirement where
  | string | number | integer | array | object
  | sized
  | convertible
  deriving DecidableEq, Repr

/-- A requirement as messages show it. -/
def Requirement.text : Requirement → String
  | string => "a string"
  | number => "a number"
  | integer => "an integer"
  | array => "an array"
  | object => "an object"
  | sized => "a string, array or object"
  | convertible => "a number, string or boolean"

/-- Why a function fails. Arguments are counted from zero. -/
inductive FunctionError where
  | arity (expected : Arity) (got : Nat)
  | argument (position : Nat) (expected : Requirement) (got : Kind)
  /-- An array of numbers holds something else. -/
  | notOnlyNumbers (position : Nat) (found : Kind)
  | negativeLength
  | digitsOutOfRange
  | invalidPattern
  | notNumeric (s : String)
  /-- An error of a function that the library does not know. -/
  | custom (message : String)
  deriving DecidableEq, Repr

namespace FunctionError

/-- The text of an error. -/
def message : FunctionError → String
  | arity expected got => s!"expected {expected.text} argument(s), got {got}"
  | argument position expected got =>
    s!"argument {position + 1} must be {expected.text}, got {got.name}"
  | notOnlyNumbers position found =>
    s!"argument {position + 1} must contain only numbers, found {found.name}"
  | negativeLength => "length cannot be negative"
  | digitsOutOfRange => "digits must be between 0 and 28"
  | invalidPattern => "invalid regex"
  | notNumeric s => "cannot convert \"" ++ s ++ "\" to a number"
  | custom message => message

end FunctionError

/-! ## Runs -/

/-- The parameters of a slice. -/
inductive SlicePart where
  | start | stop | step
  deriving DecidableEq, Repr

/-- The name of a parameter. -/
def SlicePart.name : SlicePart → String
  | start => "start"
  | stop => "end"
  | step => "step"

/-- Why a slice is invalid. -/
inductive SliceFault where
  | zeroStep
  | notInteger (part : SlicePart) (x : Float)
  | notNumber (part : SlicePart) (kind : Kind)
  | notSliceable (kind : Kind)

/-- The text of a fault. -/
def SliceFault.message : SliceFault → String
  | zeroStep => "step cannot be zero"
  | notInteger part x => part.name ++ " must be an integer, got " ++ Double.text x
  | notNumber part kind => part.name ++ " must be a number, got " ++ kind.name
  | notSliceable kind => "cannot slice " ++ kind.name

/-- What is wrong with a program that compilation would not have written. -/
inductive Malformation where
  | noConstant (index : Nat)
  | noContextName (index : Nat)
  | notAName (index : Nat)
  | noBlock (index : Nat)
  | jumpPastEnd (target : Nat)
  | extraValues
  | notBinary (op : Opcode)
  | notUnary (op : Opcode)
  | notComparison (op : Opcode)
  deriving DecidableEq, Repr

/-- The text of a malformation. -/
def Malformation.message : Malformation → String
  | noConstant index => s!"constant {index} does not exist"
  | noContextName index => s!"context name {index} does not exist"
  | notAName index => s!"constant {index} is not a name"
  | noBlock index => s!"block {index} does not exist"
  | jumpPastEnd target => s!"jump target {target} is past the end of the block"
  | extraValues => "program left extra values on the stack"
  | notBinary op => op.name ++ " is not a binary operator"
  | notUnary op => op.name ++ " is not a unary operator"
  | notComparison op => op.name ++ " is not a comparison"

/-- Why a run fails. -/
inductive RunError where
  | typeMismatch (op : Opcode) (left right : Kind)
  | unaryTypeMismatch (op : Opcode) (operand : Kind)
  | divisionByZero
  | moduloByZero
  | bitwiseNonInteger (op : Opcode)
  | shiftOutOfRange (amount : Int)
  | indexOutOfRange (index : Int) (length : Nat)
  | invalidIndex (target key : Kind)
  | invalidSlice (fault : SliceFault)
  /-- The access to null, with what was looked for. -/
  | nullAccess (key : String)
  | propertyNotFound (key : String)
  | undefinedVariable (name : String)
  | undefinedLocal (name : String)
  | unknownFunction (name : String)
  | unknownPipe (name : String)
  | function (name : String) (error : FunctionError)
  /-- A pipe handler got something else than an array. -/
  | pipeInput (handler : String) (got : Kind)
  | stackOverflow (limit : Nat)
  | stackUnderflow
  | decode (error : DecodeError)
  | malformed (fault : Malformation)

/-- Coarse categories of errors. -/
inductive ErrorCategory where
  | type | arithmetic | access | reference | function | stack | bytecode
  deriving DecidableEq, Repr

/-- The name of a category. -/
def ErrorCategory.name : ErrorCategory → String
  | type => "type"
  | arithmetic => "arithmetic"
  | access => "access"
  | reference => "reference"
  | function => "function"
  | stack => "stack"
  | bytecode => "bytecode"

namespace RunError

/-- The text of an error. -/
def message : RunError → String
  | typeMismatch op left right =>
    "cannot apply '" ++ op.operator ++ "' to " ++ left.name ++ " and " ++ right.name
  | unaryTypeMismatch op operand => "cannot apply '" ++ op.operator ++ "' to " ++ operand.name
  | divisionByZero => "division by zero"
  | moduloByZero => "modulo by zero"
  | bitwiseNonInteger op => "bitwise '" ++ op.operator ++ "' requires finite integers"
  | shiftOutOfRange amount => s!"shift amount {amount} is out of range 0..64"
  | indexOutOfRange index length => s!"index {index} is out of range for length {length}"
  | invalidIndex target key => "cannot index " ++ target.name ++ " with " ++ key.name
  | invalidSlice fault => "invalid slice: " ++ fault.message
  | nullAccess key => "cannot read " ++ key ++ " of null"
  | propertyNotFound key => "property '" ++ key ++ "' not found"
  | undefinedVariable name => "variable '" ++ name ++ "' is not provided"
  | undefinedLocal name => "pipe variable '" ++ name ++ "' is not bound"
  | unknownFunction name => "unknown function '" ++ name ++ "'"
  | unknownPipe name => "unknown pipe handler '" ++ name ++ "'"
  | function name error => name ++ "(): " ++ error.message
  | pipeInput handler got => handler ++ " pipe expects an array, got " ++ got.name
  | stackOverflow limit => s!"stack overflow (capacity {limit})"
  | stackUnderflow => "stack underflow"
  | decode error => "malformed bytecode: " ++ error.message
  | malformed fault => "malformed bytecode: " ++ fault.message

/-- The category of an error. -/
def category : RunError → ErrorCategory
  | typeMismatch .. | unaryTypeMismatch .. | invalidIndex .. | pipeInput .. => .type
  | divisionByZero | moduloByZero | bitwiseNonInteger _ | shiftOutOfRange _ => .arithmetic
  | indexOutOfRange .. | invalidSlice _ | nullAccess _ | propertyNotFound _ => .access
  | undefinedVariable _ | undefinedLocal _ => .reference
  | unknownFunction _ | unknownPipe _ | function .. => .function
  | stackOverflow _ | stackUnderflow => .stack
  | decode _ | malformed _ => .bytecode

end RunError

end PipeExpr
