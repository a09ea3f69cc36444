import PipeExpr.Machine.Pipe

/-!
# Pipe handlers on arrays

Each handler evaluates the block of its stage for the elements of an array in order, with the
element as `$item` and its index as `$index`, and fails with the first error.
-/

namespace PipeExpr

/-! ## The order of sort keys -/

namespace SortKey

/-- Where the family of a value stands. -/
def rank : Value → Nat
  | .null => 0
  | .boolean _ => 1
  | .number _ => 2
  | .string _ => 3
  | .array _ => 4
  | .object _ => 5

/-- The order of numbers, with NaN behind all others. -/
def compareNumbers (x y : Float) : Ordering :=
  match x.isNaN, y.isNaN with
  | true, true => .eq
  | true, false => .gt
  | false, true => .lt
  | false, false => if x < y then .lt else if y < x then .gt else .eq

/-- The order of sort keys: null, booleans, numbers, texts by code points, then arrays, then
objects. Arrays are not told apart, nor are objects. -/
def compare (v w : Value) : Ordering :=
  match v, w with
  | .boolean a, .boolean b => Ord.compare a b
  | .number x, .number y => compareNumbers x y
  | .string s, .string t => if s < t then .lt else if t < s then .gt else .eq
  | v, w => Ord.compare (rank v) (rank w)

/-- Whether a key may stand in front of another one. -/
def le (v w : Value) : Bool := compare v w != .gt

end SortKey

/-! ## Handlers -/

namespace PipeHandler

open PipeProgram

/-- The elements for which the block is truthy. -/
def filter : PipeHandler := fun handler input =>
  withItems handler input fun items => evalAll items fun values =>
    value (.array (((items.zip values).filter (·.2.isTruthy)).map Prod.fst))

/-- Folds the elements: the block sees the result so far as `$acc`, which starts as null. -/
def reduce : PipeHandler := fun handler input =>
  withItems handler input fun items => go items 0 .null
where
  /-- The elements from an index on. -/
  go : List Value → Nat → Value → PipeProgram
    | [], _, acc => value acc
    | item :: rest, index, acc =>
      evalThen (itemBindings item index ++ [("$acc", acc)]) fun v => go rest (index + 1) v

/-- The first element for which the block is truthy, or null. -/
def find : PipeHandler := fun handler input =>
  withItems handler input fun items => evalUntil Value.isTruthy items fun found =>
    value (found.getD .null)

/-- Whether the block is truthy for an element. -/
def some : PipeHandler := fun handler input =>
  withItems handler input fun items => evalUntil Value.isTruthy items fun found =>
    value (.boolean found.isSome)

/-- Whether the block is truthy for every element. -/
def every : PipeHandler := fun handler input =>
  withItems handler input fun items => evalUntil (! ·.isTruthy) items fun found =>
    value (.boolean found.isNone)

/-- The elements whose value equals that of no element kept before. `seen` and `kept` stand in
reverse. -/
def keepNew (entries : List (Value × Value)) (seen kept : List Value) : List Value :=
  match entries with
  | [] => kept.reverse
  | (item, key) :: rest =>
    if seen.any (·.equal key) then keepNew rest seen kept
    else keepNew rest (key :: seen) (item :: kept)

/-- The first element of each value of the block. -/
def unique : PipeHandler := fun handler input =>
  withItems handler input fun items => evalAll items fun values =>
    value (.array (keepNew (items.zip values) [] []))

/-- The elements in ascending order of the values of the block; equal ones keep their order. -/
def sort : PipeHandler := fun handler input =>
  withItems handler input fun items => evalAll items fun values =>
    value (.array (((items.zip values).mergeSort fun a b => SortKey.le a.2 b.2).map Prod.fst))

/-- Adds an element in front of the group of a name. -/
def addToGroup (groups : Fields (List Value)) (name : String) (item : Value) :
    Fields (List Value) :=
  match groups with
  | [] => [(name, [item])]
  | (key, group) :: rest =>
    if key = name then (key, item :: group) :: rest else (key, group) :: addToGroup rest name item

/-- The elements by the text of the value of the block, in the order in which the texts come up. -/
def groupBy : PipeHandler := fun handler input =>
  withItems handler input fun items => evalAll items fun values =>
    let groups := (items.zip values).foldl (fun groups (item, key) =>
      addToGroup groups key.asText item) []
    value (.object (groups.map fun (name, group) => (name, .array group.reverse)))

/-- The items of a value: those of an array, or else the value itself. -/
def spliced : Value → List Value
  | .array items => items
  | v => [v]

/-- The values of the block for all elements, with arrays among them spliced in. -/
def flatMap : PipeHandler := fun handler input =>
  withItems handler input fun items => evalAll items fun values =>
    value (.array (values.flatMap spliced))

end PipeHandler

end PipeExpr
