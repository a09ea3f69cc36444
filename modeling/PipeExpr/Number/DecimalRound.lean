import PipeExpr.Number.Binary

/-!
# Rounding in decimal

**Numbers that people round are decimal.** A double is first brought into a decimal number with a
whole mantissa of at most 96 bits and a scale of at most 28 places; its digits beyond what a double
can tell apart are rounded off, so that `1.005` is taken for what it was written as. The decimal
number is rounded to the places asked for, half away from zero, and goes back to a double.
-/

namespace PipeExpr

/-- A decimal number: `mantissa / 10 ^ scale`, negated if `negative`. -/
structure ScaledDecimal where
  /-- The sign. -/
  negative : Bool
  /-- The digits as a number. -/
  mantissa : Nat
  /-- The number of places behind the point. -/
  scale : Nat
  deriving DecidableEq, Repr

namespace ScaledDecimal

/-- The bound on mantissas, `2 ^ 96`. -/
def mantissaBound : Nat := 0x1000000000000000000000000

/-- The largest scale. -/
def maxScale : Nat := 28

/-- A mantissa with an exponent of ten, on the way from a double. -/
structure Draft where
  /-- The digits. -/
  mantissa : Nat
  /-- The exponent of ten that scales them. -/
  exponent : Int

/-- Trades a negative power of two for powers of ten. Each turn either halves an even mantissa, or
multiplies by five while there is room and otherwise drops a bit. -/
def clearHalves : Nat → Draft → Draft
  | 0, d => d
  | k + 1, d =>
    if d.mantissa % 2 = 0 then clearHalves k ⟨d.mantissa / 2, d.exponent + 1⟩
    else if d.mantissa * 5 < mantissaBound then clearHalves k ⟨d.mantissa * 5, d.exponent⟩
    else clearHalves k ⟨d.mantissa / 2, d.exponent + 1⟩

/-- Trades a positive power of two for powers of ten: doubles while there is room, and otherwise
divides by five. -/
def clearDoubles : Nat → Draft → Draft
  | 0, d => d
  | k + 1, d =>
    if d.mantissa < mantissaBound / 2 then clearDoubles k ⟨d.mantissa * 2, d.exponent - 1⟩
    else clearDoubles k ⟨d.mantissa / 5, d.exponent⟩

/-- Multiplies by ten until the exponent is not positive, if there is room; the fuel is the
exponent. -/
def raise? : Nat → Draft → Option Draft
  | 0, d => some d
  | k + 1, d =>
    if d.mantissa * 10 < mantissaBound then raise? k ⟨d.mantissa * 10, d.exponent - 1⟩ else none

/-- Drops one digit, rounding half up. -/
def dropDigit (d : Draft) : Draft :=
  ⟨d.mantissa / 10 + (if d.mantissa % 10 ≥ 5 then 1 else 0), d.exponent + 1⟩

/-- Drops digits until the scale is in range; what vanishes has no exponent left. -/
def fitScale : Nat → Draft → Draft
  | 0, d => d
  | k + 1, d =>
    if d.exponent < -maxScale then
      let digit := d.mantissa % 10
      let rest := d.mantissa / 10
      if rest = 0 then ⟨0, 0⟩
      else fitScale k ⟨if digit ≥ 5 then rest + 1 else rest, d.exponent + 1⟩
    else d

/-- Drops places until the mantissa is one that a double can hold. -/
def fitDouble : Nat → Draft → Draft
  | 0, d => d
  | k + 1, d =>
    if d.exponent < 0 ∧ d.mantissa ≥ Binary.hiddenBit then fitDouble k (dropDigit d) else d

/-- Drops zeros at the end of the places. -/
def dropZeros : Nat → Draft → Draft
  | 0, d => d
  | k + 1, d =>
    if d.exponent < 0 ∧ d.mantissa % 10 = 0 then dropZeros k ⟨d.mantissa / 10, d.exponent + 1⟩
    else d

/-- The decimal number that a double is taken for, if there is one in range. -/
def ofDouble? (b : Binary) : Option ScaledDecimal :=
  if b.mantissa = 0 then some ⟨b.negative, 0, 0⟩
  else
    let start : Draft := ⟨b.mantissa, b.exponent⟩
    let tens := match b.exponent with
      | .negSucc k => clearHalves (k + 1) start
      | .ofNat k => clearDoubles k start
    (raise? tens.exponent.toNat tens).map fun d =>
      let d := fitScale d.exponent.natAbs d
      let d := fitDouble d.exponent.natAbs d
      let d := dropZeros d.exponent.natAbs d
      ⟨b.negative, d.mantissa, (-d.exponent).toNat⟩

/-- Rounds to at most `places` places, half away from zero. -/
def round (d : ScaledDecimal) (places : Nat) : ScaledDecimal :=
  if d.scale ≤ places then d
  else
    let unit := Nat.pow 10 (d.scale - places)
    let up := 2 * (d.mantissa % unit) ≥ unit
    { d with mantissa := d.mantissa / unit + (if up then 1 else 0), scale := places }

/-- A double raised to a whole power by repeated squaring. -/
def powerOf (x : Float) (n : Nat) : Float :=
  go 32 x n 1.0
where
  /-- Multiplies `result` by the powers of `x` that make up the exponent. -/
  go : Nat → Float → Nat → Float → Float
    | 0, _, _, result => result
    | fuel + 1, x, n, result =>
      let result := if n % 2 = 1 then result * x else result
      if n / 2 = 0 then result else go fuel (x * x) (n / 2) result

/-- The double for a decimal number: whole numbers directly, others as the whole part and the
fraction, brought to their places once more. -/
def toDouble (d : ScaledDecimal) : Float :=
  let signed := fun (x : Float) => if d.negative && d.mantissa ≠ 0 then -x else x
  if d.scale = 0 then signed (Double.ofInt d.mantissa)
  else
    let unit := Nat.pow 10 d.scale
    let whole := Double.ofInt (d.mantissa / unit)
    let fraction := Double.ofInt (d.mantissa % unit) / Double.ofInt unit
    if fraction == 0.0 then signed whole
    else
      let shift := powerOf 10.0 d.scale
      signed ((((whole + fraction) * shift).round) / shift)

end ScaledDecimal

namespace Double

/-- A double rounded to a number of decimal places, half away from zero. What is beyond decimal
numbers, and so whole, stays as it is. -/
def roundTo (x : Float) (places : Nat) : Float :=
  match classify x with
  | .finite b =>
    match ScaledDecimal.ofDouble? b with
    | some d => (d.round places).toDouble
    | none => x
  | _ => x

end Double

end PipeExpr
