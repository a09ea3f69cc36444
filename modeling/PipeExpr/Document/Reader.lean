import PipeExpr.Document.Basic
import PipeExpr.Number.Read
import PipeExpr.Text.RangeTable

/-!
# Reading documents

`Document.ofText?` reads JSON text, or tells that it is not well formed.

**Nesting.** Arrays and objects may be nested up to `nestingLimit` deep. The depth that is left is
the argument on which the reader of documents recurs, so the limit is also the reason why reading
ends.

**Decimals are read in one pass.** The digits go into a mantissa of 64 bits until it is full, and
the mantissa is then scaled by a power of ten. That is exact for short numbers; a long one may come
out as a neighbour of the nearest double.
-/

namespace PipeExpr.Document

/-- A step of the reader on the characters that are left; it fails on text that is not well
formed. -/
abbrev Read := StateT (List Char) Option

namespace Read

/-- The next character; the text must not end here. -/
def peek : Read Char := do (← get).head?

/-- Passes over one character, which is returned. -/
def next : Read Char := do
  let c :: rest ← get | failure
  set rest
  return c

/-- Passes over a character, which must be the given one. -/
def expect (c : Char) : Read Unit := do guard ((← next) == c)

/-- Passes over white space: spaces, tabs and line ends. -/
def blanks : Read Unit :=
  modify (·.dropWhile fun c => c == ' ' || c == '\n' || c == '\t' || c == '\r')

/-- The decimal digits from here on. -/
def digits : Read (List Char) := do
  let rest ← get
  set (rest.dropWhile Text.isDigit)
  return rest.takeWhile Text.isDigit

end Read

open Read

/-! ## Numbers -/

/-- The greatest mantissa. -/
def mantissaLimit : Nat := 0xFFFFFFFFFFFFFFFF

/-- Appends digits to a mantissa until the next one does not fit. Returns the mantissa and the
number of digits that went into it. -/
def absorb (mantissa : Nat) : List Char → Nat × Nat
  | [] => (mantissa, 0)
  | c :: cs =>
    let more := mantissa * 10 + (c.toNat - '0'.toNat)
    if more ≤ mantissaLimit then
      let (result, count) := absorb more cs
      (result, count + 1)
    else (mantissa, 0)

/-- A power of ten, rounded to a double. -/
def powerOfTen (exponent : Nat) : Float := Float.ofScientific 1 false exponent

/-- The greatest exponent of a power of ten that is a double. -/
def greatestExponent : Nat := 308

/-- Scales a double by a power of ten in one multiplication or division; where the power is too
small to be a double, in several divisions. There is no result beyond the range of doubles. `rounds`
bounds the divisions. -/
def scale? (x : Float) (exponent : Int) : Nat → Option Float
  | 0 => some x
  | rounds + 1 =>
    if exponent.natAbs ≤ greatestExponent then
      if exponent ≥ 0 then
        let y := x * powerOfTen exponent.toNat
        if Double.isFinite y then some y else none
      else some (x / powerOfTen exponent.natAbs)
    else if x == 0.0 then some x
    else if exponent ≥ 0 then none
    else scale? (x / powerOfTen greatestExponent) (exponent + greatestExponent) rounds

/-- The decimal with a given sign, mantissa and exponent of ten. -/
def ofParts? (negative : Bool) (mantissa : Nat) (exponent : Int) : Option Document := do
  let magnitude ← scale? (Double.ofInt mantissa) exponent (exponent.natAbs + 1)
  return decimal (if negative then -magnitude else magnitude)

/-- The digits of an exponent, after its letter, with its sign; there must be one digit. -/
def exponent : Read (Bool × Nat) := do
  let negative := (← peek) == '-'
  if negative || (← peek) == '+' then let _ ← next
  let ds ← digits
  guard !ds.isEmpty
  return (negative, digitsValue ds)

/-- The greatest exponent that is looked at as a number. -/
def exponentLimit : Nat := 0x7FFFFFFF

/-- The rest of a number, after its sign and the digits before its point. -/
def numberTail (negative : Bool) (whole : List Char) : Read Document := do
  let (mantissa, count) := absorb 0 whole
  let raised : Int := whole.length - count
  let (mantissa, lowered) ←
    if (← get).head? = some '.' then do
      let _ ← next
      let fraction ← digits
      guard !fraction.isEmpty
      pure (absorb mantissa fraction)
    else pure (mantissa, 0)
  let scaled : Int := raised - lowered
  match (← get).head? with
  | some 'e' | some 'E' =>
    let _ ← next
    let (below, size) ← exponent
    if size > exponentLimit then
      guard (below || mantissa = 0)
      return decimal (if negative then -0.0 else 0.0)
    else ofParts? negative mantissa (scaled + if below then -(size : Int) else size)
  | _ => ofParts? negative mantissa scaled

/-- A number whose sign has been read. One that is written as an integer is an integer if 64 bits
hold it, and it is not the negative zero. -/
def number (negative : Bool) : Read Document := do
  let whole ← digits
  guard !whole.isEmpty
  guard (whole.head? != some '0' || whole.length = 1)
  let value := digitsValue whole
  let continued := match (← get).head? with
    | some c => c == '.' || c == 'e' || c == 'E'
    | none => false
  if continued || value > mantissaLimit then numberTail negative whole
  else if !negative then return integer value
  else if value = 0 || value > 0x8000000000000000 then return decimal (-Double.ofInt value)
  else return integer (-(value : Int))

/-! ## Texts -/

/-- The number that four hexadecimal digits spell. -/
def fourHex : Read Nat := do
  let digits ← (List.range 4).mapM fun _ => next
  guard (digits.all fun c => (Text.hexDigit? c).isSome)
  return Text.hexNumber (String.ofList digits)

/-- The character of an escape, after its backslash. A character beyond the first plane is written
as two numbers of which neither may stand alone. -/
def escape : Read Char := do
  match ← next with
  | '"' => return '"'
  | '\\' => return '\\'
  | '/' => return '/'
  | 'b' => return '\x08'
  | 'f' => return '\x0C'
  | 'n' => return '\n'
  | 'r' => return '\r'
  | 't' => return '\t'
  | 'u' =>
    let first ← fourHex
    if 0xD800 ≤ first && first < 0xDC00 then
      expect '\\'
      expect 'u'
      let second ← fourHex
      guard (0xDC00 ≤ second && second < 0xE000)
      return Char.ofNat (0x10000 + (first - 0xD800) * 0x400 + (second - 0xDC00))
    else
      guard !(0xDC00 ≤ first && first < 0xE000)
      return Char.ofNat first
  | _ => failure

/-- The rest of a text, after its opening quote; `read` holds its characters so far, the last one
first. The first argument bounds the number of characters. -/
def textTail : Nat → List Char → Read String
  | 0, _ => failure
  | fuel + 1, read => do
    match ← next with
    | '"' => return String.ofList read.reverse
    | '\\' => textTail fuel ((← escape) :: read)
    | c =>
      guard (c.toNat ≥ 0x20)
      textTail fuel (c :: read)

/-- A text; `bound` is at least the number of characters that are left. -/
def text (bound : Nat) : Read String := do
  expect '"'
  textTail bound []

/-! ## Arrays and objects -/

/-- Passes over a word. -/
def word (s : String) : Read Unit := s.toList.forM expect

/-- A document that is neither an array nor an object. -/
def scalar (bound : Nat) : Read Document := do
  match ← peek with
  | 'n' => word "null"; return null
  | 't' => word "true"; return boolean true
  | 'f' => word "false"; return boolean false
  | '"' => return string (← text bound)
  | '-' => let _ ← next; number true
  | _ => number false

/-- The items after an opening bracket, up to and with the closing one. The first argument bounds
their number. -/
def itemsTail {α : Type} (item : Read α) (close : Char) : Nat → List α → Read (List α)
  | 0, _ => failure
  | fuel + 1, read => do
    blanks
    let read := (← item) :: read
    blanks
    let c ← next
    if c = close then return read.reverse
    else
      guard (c == ',')
      itemsTail item close fuel read

/-- What stands between brackets, which may be nothing. -/
def items {α : Type} (bound : Nat) (item : Read α) (close : Char) : Read (List α) := do
  let _ ← next
  blanks
  if (← peek) = close then
    let _ ← next
    return []
  else itemsTail item close bound []

/-- A name and what it stands for. -/
def entry {α : Type} (bound : Nat) (item : Read α) : Read (String × α) := do
  let name ← text bound
  blanks
  expect ':'
  blanks
  return (name, ← item)

/-- A document with at most the given depth of nesting. -/
def nested (bound : Nat) : Nat → Read Document
  | 0 => scalar bound
  | depth + 1 => do
    let inner := nested bound depth
    match ← peek with
    | '[' => return array (← items bound inner ']')
    | '\x7b' => return object (Fields.ofList (← items bound (entry bound inner) '\x7d'))
    | _ => scalar bound

/-- How deep arrays and objects may be nested. -/
def nestingLimit : Nat := 127

/-- Reads a document from its text. -/
def ofText? (s : String) : Option Document := do
  let cs := s.toList
  let read : Read Document := do
    blanks
    let d ← nested cs.length nestingLimit
    blanks
    return d
  let (d, rest) ← read.run cs
  guard rest.isEmpty
  return d

end PipeExpr.Document
