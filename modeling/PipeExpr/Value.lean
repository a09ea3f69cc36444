import PipeExpr.Fields
import PipeExpr.Number.Text
import PipeExpr.Text.Quoted

/-!
# Values

The one type of data that expressions work on: constants, variables, arguments and results are all
`Value`s. An object is an ordered map, so its order shows in its text and in documents,
but equality does not look at it.
-/

namespace PipeExpr

/-- A value. -/
inductive Value where
  | null
  | boolean (b : Bool)
  /-- A double; NaN and the infinities are ordinary numbers. -/
  | number (x : Float)
  | string (s : String)
  | array (items : List Value)
  /-- The entries of an object, each name once, in insertion order. -/
  | object (fields : List (String × Value))
  deriving Inhabited

/-- The families of values. -/
inductive Kind where
  | null | boolean | number | string | array | object
  deriving DecidableEq, Repr

/-- The name of a family, as messages and the function `type` show it. -/
def Kind.name : Kind → String
  | null => "null"
  | boolean => "boolean"
  | number => "number"
  | string => "string"
  | array => "array"
  | object => "object"

namespace Value

/-- The family of a value. -/
def kind : Value → Kind
  | null => .null
  | boolean _ => .boolean
  | number _ => .number
  | string _ => .string
  | array _ => .array
  | object _ => .object

/-- A whole number as a value. -/
def ofNat (n : Nat) : Value := number (Double.ofInt n)

/-- Whether a value counts as true. Null, `false`, both zeros, and empty texts, arrays and objects
do not; NaN does. -/
def isTruthy : Value → Bool
  | null => false
  | boolean b => b
  | number x => !(x == 0.0)
  | string s => !s.isEmpty
  | array items => !items.isEmpty
  | object fields => !fields.isEmpty

/-- Whether a value is null. -/
def isNull : Value → Bool
  | null => true
  | _ => false

/-- The number in a value. -/
def number? : Value → Option Float
  | number x => some x
  | _ => none

/-- The text in a value. -/
def string? : Value → Option String
  | string s => some s
  | _ => none

/-- The items of an array. -/
def items? : Value → Option (List Value)
  | array items => some items
  | _ => none

/-- The entries of an object. -/
def fields? : Value → Option (Fields Value)
  | object fields => some fields
  | _ => none

/-! ## Equality -/

mutual

/-- Equality of values: numbers as doubles, so NaN differs from itself and the zeros are equal;
arrays item by item; objects as sets of entries, in whatever order. -/
def equal : Value → Value → Bool
  | null, null => true
  | boolean a, boolean b => a == b
  | number x, number y => x == y
  | string s, string t => s == t
  | array xs, array ys => equalItems xs ys
  | object fs, object gs => fs.length == gs.length && equalFields fs gs
  | _, _ => false

/-- Equality of two rows of items. -/
def equalItems : List Value → List Value → Bool
  | [], [] => true
  | x :: xs, y :: ys => equal x y && equalItems xs ys
  | _, _ => false

/-- Whether every one of the given entries has an equal value under its name in another object. -/
def equalFields : List (String × Value) → Fields Value → Bool
  | [], _ => true
  | (name, v) :: rest, gs =>
    (match gs.get? name with
      | some w => equal v w
      | none => false) && equalFields rest gs

end

/-! ## Text -/

mutual

/-- Appends the written form of a value. -/
def write (out : String) : Value → String
  | null => out ++ "null"
  | boolean b => out ++ (if b then "true" else "false")
  | number x => out ++ Double.text x
  | string s => out ++ Text.quoted s
  | array [] => out ++ "[]"
  | array (x :: xs) => (writeItems (write (out ++ "[") x) xs) ++ "]"
  | object [] => out ++ "\x7b\x7d"
  | object ((name, v) :: rest) =>
    writeFields (write (out ++ "\x7b" ++ Text.quoted name ++ ": ") v) rest ++ "\x7d"

/-- Appends further items of an array. -/
def writeItems (out : String) : List Value → String
  | [] => out
  | x :: xs => writeItems (write (out ++ ", ") x) xs

/-- Appends further entries of an object. -/
def writeFields (out : String) : List (String × Value) → String
  | [] => out
  | (name, v) :: rest => writeFields (write (out ++ ", " ++ Text.quoted name ++ ": ") v) rest

end

/-- The written form of a value: texts are quoted, also at the top. -/
def display (v : Value) : String := write "" v

/-- A value as text: a text is itself, anything else is its written form. -/
def asText : Value → String
  | string s => s
  | v => display v

end Value

end PipeExpr
