import PipeExpr.Machine.Pipe

/-!
# Arguments of functions

How the functions of the library look at their arguments: the number of them first, then the kind of
each one, from left to right.
-/

namespace PipeExpr

namespace Arguments

/-- A step of a function that can fail. -/
abbrev Checked (α : Type) := Except FunctionError α

/-- The only argument. -/
def one (arguments : List Value) : Checked Value :=
  match arguments with
  | [v] => .ok v
  | _ => .error (.arity (.exactly 1) arguments.length)

/-- Checks the number of arguments. -/
def count (arity : Arity) (arguments : List Value) : Checked Unit :=
  if arity.admits arguments.length then .ok () else .error (.arity arity arguments.length)

/-- The argument at a position; the number of arguments has been checked before. -/
def get (arguments : List Value) (position : Nat) : Value := arguments.getD position .null

/-- An argument as a text. -/
def string (position : Nat) (v : Value) : Checked String :=
  match v with
  | .string s => .ok s
  | v => .error (.argument position .string v.kind)

/-- An argument as a number. -/
def number (position : Nat) (v : Value) : Checked Float :=
  match v with
  | .number x => .ok x
  | v => .error (.argument position .number v.kind)

/-- An argument as an integer, moved into the range of 64 bits. -/
def integer (position : Nat) (v : Value) : Checked Int :=
  match v with
  | .number x =>
    if (Double.toInt? x).isSome then .ok (Double.clampInt64 x)
    else .error (.argument position .integer .number)
  | v => .error (.argument position .integer v.kind)

/-- An argument as an array. -/
def array (position : Nat) (v : Value) : Checked (List Value) :=
  match v with
  | .array items => .ok items
  | v => .error (.argument position .array v.kind)

/-- An argument as an object. -/
def object (position : Nat) (v : Value) : Checked (Fields Value) :=
  match v with
  | .object fields => .ok fields
  | v => .error (.argument position .object v.kind)

/-- An argument as an array of numbers. -/
def numbers (position : Nat) (v : Value) : Checked (List Float) := do
  (← array position v).mapM fun
    | .number x => .ok x
    | item => .error (.notOnlyNumbers position item.kind)

end Arguments

end PipeExpr
