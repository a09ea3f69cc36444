import PipeExpr.Document.Basic
import PipeExpr.Value

/-!
# Documents and values

Values have one kind of number and documents two. **From documents to values** every number becomes
a double. **From values to documents** a number becomes an integer if it is integral and of a
magnitude up to `exactLimit`, where doubles hold every integer; other finite numbers stay decimals,
and what is not finite has no form in a document and becomes null.
-/

namespace PipeExpr

/-- The magnitude up to which every integer is a double, `2 ^ 53`. -/
def exactLimit : Nat := 0x20000000000000

namespace Document

mutual

/-- The value of a document. -/
def toValue : Document → Value
  | null => .null
  | boolean b => .boolean b
  | integer n => .number (Double.ofInt n)
  | decimal x => .number x
  | string s => .string s
  | array items => .array (itemsToValues items)
  | object fields => .object (fieldsToValues fields)

/-- The values of the items of an array. -/
def itemsToValues : List Document → List Value
  | [] => []
  | d :: ds => d.toValue :: itemsToValues ds

/-- The values of the entries of an object. -/
def fieldsToValues : List (String × Document) → List (String × Value)
  | [] => []
  | (name, d) :: rest => (name, d.toValue) :: fieldsToValues rest

end

/-- The variables that a document names: the entries of an object, and none for null. -/
def toContext? : Document → Option (Fields Value)
  | null => some []
  | object fields => some (fieldsToValues fields)
  | _ => none

/-- The document of a number. -/
def ofNumber (x : Float) : Document :=
  match Double.classify x with
  | .finite b =>
    if b.isWhole && b.wholePart ≤ exactLimit then integer b.truncate else decimal x
  | _ => null

mutual

/-- The document of a value. -/
def ofValue : Value → Document
  | .null => null
  | .boolean b => boolean b
  | .number x => ofNumber x
  | .string s => string s
  | .array items => array (ofItems items)
  | .object fields => object (ofFields fields)

/-- The documents of the items of an array. -/
def ofItems : List Value → List Document
  | [] => []
  | v :: vs => ofValue v :: ofItems vs

/-- The documents of the entries of an object. -/
def ofFields : List (String × Value) → List (String × Document)
  | [] => []
  | (name, v) :: rest => (name, ofValue v) :: ofFields rest

end

end Document

end PipeExpr
