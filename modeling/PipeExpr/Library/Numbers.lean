import PipeExpr.Library.Arguments
import PipeExpr.Number.DecimalRound
import PipeExpr.Number.Read
import PipeExpr.Text.Search

/-!
# Functions on numbers
-/

namespace PipeExpr

namespace Functions

open Arguments

/-- A function of one number. -/
def ofNumber (f : Float → Float) : HostFunction := fun arguments => do
  return .number (f (← number 0 (← one arguments)))

/-- The magnitude of a number. -/
def abs : HostFunction := ofNumber Float.abs

/-- The greatest whole number that is not above. -/
def floor : HostFunction := ofNumber Float.floor

/-- The least whole number that is not below. -/
def ceil : HostFunction := ofNumber Float.ceil

/-- The square root. -/
def sqrt : HostFunction := ofNumber Float.sqrt

/-- A number rounded to decimal places, half away from zero; no places if omitted. -/
def round : HostFunction := fun arguments => do
  count (.between 1 2) arguments
  let x ← number 0 (get arguments 0)
  let digits ← match arguments[1]? with
    | some v => integer 1 v
    | none => pure 0
  if digits < 0 ∨ 28 < digits then .error .digitsOutOfRange
  else return .number (Double.roundTo x digits.toNat)

/-- The numbers to choose from: the items of a single array, or else the arguments. -/
def choices (arguments : List Value) : Checked (List Float) :=
  match arguments with
  | [] => .error (.arity (.atLeast 1) 0)
  | [.array items] => numbers 0 (.array items)
  | _ => arguments.zipIdx.mapM fun (v, position) => number position v

/-- The first number that no later one is better than; NaN as soon as one comes up, and null if
there is no number. -/
def best (better : Float → Float → Bool) (xs : List Float) : Value :=
  if xs.any Float.isNaN then .number (0.0 / 0.0)
  else match xs with
    | [] => .null
    | x :: rest => .number (rest.foldl (fun b y => if better y b then y else b) x)

/-- The least number. -/
def min : HostFunction := fun arguments => best (· < ·) <$> choices arguments

/-- The greatest number. -/
def max : HostFunction := fun arguments => best (· > ·) <$> choices arguments

/-- The sum of numbers, from the left, where nothing sums up to the negative zero. -/
def total (xs : List Float) : Float := xs.foldl (· + ·) (-0.0)

/-- The sum of an array of numbers. -/
def sum : HostFunction := fun arguments => do
  return .number (total (← numbers 0 (← one arguments)))

/-- The mean of an array of numbers, or null if it is empty. -/
def avg : HostFunction := fun arguments => do
  let xs ← numbers 0 (← one arguments)
  if xs.isEmpty then return .null else return .number (total xs / Double.ofInt xs.length)

/-- The number that a text denotes, specials included. -/
def numberOfText? (s : String) : Option Float :=
  if s = "NaN" then some (0.0 / 0.0)
  else if s = "Inf" then some (1.0 / 0.0)
  else if s = "-Inf" then some (-1.0 / 0.0)
  else Double.ofText? s

/-- A value as a number: booleans count one and zero, and a text is read with the white space around
it dropped. -/
def num : HostFunction := fun arguments => do
  match ← one arguments with
  | .number x => return .number x
  | .boolean b => return .number (if b then 1.0 else 0.0)
  | .string s =>
    match numberOfText? (Text.trim s) with
    | some x => return .number x
    | none => .error (.notNumeric s)
  | v => .error (.argument 0 .convertible v.kind)

end Functions

end PipeExpr
