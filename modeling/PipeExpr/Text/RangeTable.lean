/-!
# Tables of code point ranges

A property of characters is written as text, `41-5A 61-7A AA`: hexadecimal bounds, both included,
in ascending order. `RangeTable.ofText` reads such a text once, and `RangeTable.contains` then
searches it by bisection.
-/

namespace PipeExpr.Text

/-- The value of a hexadecimal digit of either case. -/
def hexDigit? (c : Char) : Option Nat :=
  if '0' ≤ c ∧ c ≤ '9' then some (c.toNat - '0'.toNat)
  else if 'A' ≤ c ∧ c ≤ 'F' then some (c.toNat - 'A'.toNat + 10)
  else if 'a' ≤ c ∧ c ≤ 'f' then some (c.toNat - 'a'.toNat + 10)
  else none

/-- The number that a row of hexadecimal digits spells; other characters are passed over. -/
def hexNumber (digits : String) : Nat :=
  digits.toList.foldl (fun n c => match hexDigit? c with
    | some d => n * 16 + d
    | none => n) 0

/-- The rows of a table text: its parts between spaces and line ends. -/
def tableRows (text : String) : List String :=
  ((text.map fun c => if c = '\n' then ' ' else c).splitOn " ").filter (· ≠ "")

/-- Where `x` stands in an ascending array: the number of entries up to and including `x`. -/
def rank (bounds : Array Nat) (x : Nat) : Nat :=
  go 0 bounds.size bounds.size
where
  /-- Bisects `[low, high)`; the fuel is never used up, since each step halves the interval. -/
  go (low high : Nat) : Nat → Nat
    | 0 => low
    | fuel + 1 =>
      if low < high then
        let middle := (low + high) / 2
        if bounds.getD middle 0 ≤ x then go (middle + 1) high fuel else go low middle fuel
      else low

/-- A set of code points: the ascending list of the points where membership changes. -/
structure RangeTable where
  /-- Even positions hold the first code point of a range, odd positions the first one after it. -/
  bounds : Array Nat

namespace RangeTable

/-- Reads a table from its text. -/
def ofText (text : String) : RangeTable where
  bounds := (tableRows text).foldl (fun acc row =>
    match row.splitOn "-" with
    | [first, last] => (acc.push (hexNumber first)).push (hexNumber last + 1)
    | [only] => (acc.push (hexNumber only)).push (hexNumber only + 1)
    | _ => acc) #[]

/-- Whether a character is in the set: it lies past an odd number of changes. -/
def contains (t : RangeTable) (c : Char) : Bool :=
  rank t.bounds c.toNat % 2 = 1

end RangeTable

end PipeExpr.Text
