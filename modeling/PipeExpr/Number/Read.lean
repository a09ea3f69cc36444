import PipeExpr.Number.Binary
import PipeExpr.Text.Class

/-!
# Reading decimal numbers

**Literals as a value.** The scanner and the text functions cut a number into its digits before and
after the point and its exponent; `Numeral` holds these parts, and `Numeral.toDouble` is the
nearest double. Exponents beyond the range of doubles are decided without computing the power.

`Double.ofText?` reads a whole text as a number. It is more generous than the language: a sign may
stand in front, and one side of the point may be empty.
-/

namespace PipeExpr

/-- The parts of a decimal numeral. -/
structure Numeral where
  /-- Digits before the point. -/
  whole : List Char
  /-- Digits after the point. -/
  fraction : List Char
  /-- The exponent of ten. -/
  exponent : Int
  deriving DecidableEq, Repr

/-- The number that a row of decimal digits spells. -/
def digitsValue (digits : List Char) : Nat :=
  digits.foldl (fun n c => n * 10 + (c.toNat - '0'.toNat)) 0

namespace Numeral

/-- The nearest double to `mantissa * 10 ^ exponent`. -/
def nearest (mantissa : Nat) (exponent : Int) : Float :=
  if mantissa = 0 then 0
  else
    let places : Int := (Nat.toDigits 10 mantissa).length
    if places + exponent > 310 then 1.0 / 0.0
    else if places + exponent < -330 then 0
    else Float.ofScientific mantissa (exponent < 0) exponent.natAbs

/-- The nearest double to the number that a numeral denotes. -/
def toDouble (n : Numeral) : Float :=
  nearest (digitsValue (n.whole ++ n.fraction)) (n.exponent - n.fraction.length)

/-- The exponent that a row of characters spells: a sign, then digits. -/
def exponentOf? (cs : List Char) : Option Int :=
  let (negative, digits) := match cs with
    | '-' :: rest => (true, rest)
    | '+' :: rest => (false, rest)
    | rest => (false, rest)
  if digits.isEmpty || !digits.all Text.isDigit then none
  else
    let magnitude : Int := digitsValue digits
    some (if negative then -magnitude else magnitude)

/-- The numeral that a text without a sign spells: digits with at most one point among them, and an
exponent behind a marker. -/
def ofChars? (cs : List Char) : Option Numeral :=
  let whole := cs.takeWhile Text.isDigit
  let rest := cs.dropWhile Text.isDigit
  let (fraction, rest) := match rest with
    | '.' :: rest => (rest.takeWhile Text.isDigit, rest.dropWhile Text.isDigit)
    | rest => ([], rest)
  if whole.isEmpty && fraction.isEmpty then none
  else match rest with
    | [] => some ⟨whole, fraction, 0⟩
    | marker :: rest =>
      if marker = 'e' ∨ marker = 'E' then
        (exponentOf? rest).map fun exponent => ⟨whole, fraction, exponent⟩
      else none

end Numeral

namespace Double

/-- The finite number that a text spells. -/
def ofText? (s : String) : Option Float :=
  let (negative, cs) := match s.toList with
    | '-' :: rest => (true, rest)
    | '+' :: rest => (false, rest)
    | rest => (false, rest)
  match Numeral.ofChars? cs with
  | none => none
  | some n =>
    let x := n.toDouble
    if isFinite x then some (if negative then -x else x) else none

end Double

end PipeExpr
