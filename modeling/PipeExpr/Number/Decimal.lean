import PipeExpr.Number.Binary

/-!
# Decimal digits of a double

**The shortest digits that read back.** `Decimal.shortest` gives the decimal fraction with the
fewest digits that lies in the interval of reals which round to a given double, and among those the
nearest to it. For ever finer decimal grids it looks at the two neighbours of the value on the grid;
the first grid with a neighbour in the interval has the fewest digits. If both neighbours are
equally near, a parameter decides.
-/

namespace PipeExpr

/-- A decimal fraction: `digits * 10 ^ exponent`. -/
structure Decimal where
  /-- The significant digits as a number. -/
  digits : Nat
  /-- The exponent of ten that scales them. -/
  exponent : Int
  deriving DecidableEq, Repr

/-- Which of two equally near neighbours is taken. -/
inductive Tie where
  | up
  | even
  deriving DecidableEq, Repr

namespace Decimal

/-- Drops zeros at the end; the fuel bounds how many. -/
def trimZeros : Nat → Decimal → Decimal
  | 0, d => d
  | fuel + 1, d =>
    if d.digits % 10 = 0 then trimZeros fuel ⟨d.digits / 10, d.exponent + 1⟩ else d

/-- The reals that round to a double, all over one denominator: `low ≤ x ≤ high`, with the ends
included only if `closed`. -/
structure Interval where
  /-- The lower end. -/
  low : Nat
  /-- The double itself. -/
  value : Nat
  /-- The upper end. -/
  high : Nat
  /-- The common denominator. -/
  denominator : Nat
  /-- Whether the ends round to the double too. -/
  closed : Bool
  deriving Repr

/-- The rounding interval of a positive binary fraction as it comes out of a double. Below a power
of two the doubles lie twice as dense. -/
def Interval.of (b : Binary) : Interval :=
  let m := b.mantissa
  let below := if m = Binary.hiddenBit ∧ b.exponent > -1074 then 1 else 2
  let exponent := b.exponent - 2
  let scale := Nat.pow 2 exponent.toNat
  { low := (4 * m - below) * scale
    value := 4 * m * scale
    high := (4 * m + 2) * scale
    denominator := Nat.pow 2 (-exponent).toNat
    closed := m % 2 = 0 }

/-- Whether `n / d` lies in the interval, where `d` is the interval's denominator times `unit`. -/
def Interval.covers (i : Interval) (n : Nat) : Bool :=
  if i.closed then i.low ≤ n && n ≤ i.high else i.low < n && n < i.high

/-- The interval in units of `10 ^ exponent`. -/
def Interval.scaled (i : Interval) (exponent : Int) : Interval :=
  let up := Nat.pow 10 (-exponent).toNat
  { i with
    low := i.low * up
    value := i.value * up
    high := i.high * up
    denominator := i.denominator * Nat.pow 10 exponent.toNat }

/-- Looks at the grid of multiples of `10 ^ exponent` and, while it has no point in the
interval, at the next finer one. -/
def search (tie : Tie) (i : Interval) : Nat → Int → Decimal
  | 0, exponent =>
    let s := i.scaled exponent
    ⟨s.value / s.denominator, exponent⟩
  | fuel + 1, exponent =>
    let s := i.scaled exponent
    let n := s.value / s.denominator
    let lower := s.covers (n * s.denominator)
    let upper := s.covers ((n + 1) * s.denominator)
    let rest := 2 * (s.value % s.denominator)
    let takeUpper :=
      if lower && upper then
        rest > s.denominator || (rest == s.denominator && match tie with
          | .up => true
          | .even => n % 2 == 1)
      else upper
    if takeUpper then trimZeros 20 ⟨n + 1, exponent⟩
    else if lower then trimZeros 20 ⟨n, exponent⟩
    else search tie i fuel (exponent - 1)

/-- The shortest decimal fraction that reads back as a given magnitude. -/
def shortest (tie : Tie) (b : Binary) : Decimal :=
  if b.mantissa = 0 then ⟨0, 0⟩
  else
    -- The number of binary digits before the point bounds the number of decimal ones.
    let binaryPlaces : Int := (Nat.log2 b.mantissa : Int) + b.exponent
    search tie (Interval.of b) 20 (binaryPlaces * 30103 / 100000 + 1)

/-- The significant digits, most significant first. -/
def digitChars (d : Decimal) : List Char := Nat.toDigits 10 d.digits

/-- A decimal written without an exponent. -/
def positional (d : Decimal) : String :=
  let digits := d.digitChars
  match d.exponent with
  | .ofNat e => String.ofList (digits ++ List.replicate e '0')
  | .negSucc e =>
    let places := e + 1
    if places < digits.length then
      let whole := digits.length - places
      String.ofList (digits.take whole ++ '.' :: digits.drop whole)
    else
      String.ofList (['0', '.'] ++ List.replicate (places - digits.length) '0' ++ digits)

end Decimal

end PipeExpr
