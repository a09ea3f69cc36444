/-!
# The exact value of a double

**Everything exact goes through one decomposition.** A finite double is a sign, a natural mantissa
and a binary exponent, read off its sixty-four bits. Integral parts, remainders, decimal digits and
casts to integers are computed from these three in unbounded arithmetic, so no step of them rounds.
-/

namespace PipeExpr

/-- A binary fraction: `mantissa * 2 ^ exponent`, negated if `negative`. Zero keeps its sign. -/
structure Binary where
  /-- The sign bit. -/
  negative : Bool
  /-- The mantissa, with the hidden bit in place. -/
  mantissa : Nat
  /-- The exponent of two that scales the mantissa. -/
  exponent : Int
  deriving DecidableEq, Repr

/-- What a double stands for. -/
inductive DoubleClass where
  | notANumber
  | infinite (negative : Bool)
  | finite (value : Binary)
  deriving DecidableEq, Repr

namespace Binary

/-- The leading bit of the mantissa of a normal double, `2 ^ 52`, which its bits leave out. -/
def hiddenBit : Nat := 0x10000000000000

/-- The magnitude with the fraction cut off. -/
def wholePart (b : Binary) : Nat :=
  match b.exponent with
  | .ofNat e => b.mantissa <<< e
  | .negSucc e => b.mantissa >>> (e + 1)

/-- Whether the value has no fraction. -/
def isWhole (b : Binary) : Bool :=
  match b.exponent with
  | .ofNat _ => true
  | .negSucc e => b.mantissa % Nat.pow 2 (e + 1) = 0

/-- The value with the fraction cut off. -/
def truncate (b : Binary) : Int :=
  if b.negative then -(b.wholePart : Int) else (b.wholePart : Int)

/-- The double with this value, where the mantissa has at most 53 significant bits once trailing
zeros are dropped. Bits beyond what a double holds are cut off. -/
def toDouble (b : Binary) : Float :=
  let sign : Nat := if b.negative then 0x8000000000000000 else 0
  if b.mantissa = 0 then Float.ofBits (UInt64.ofNat sign)
  else
    let width : Int := (Nat.log2 b.mantissa : Int) + 1
    let exponent : Int := max (-1074) (b.exponent + width - 53)
    let shift := b.exponent - exponent
    let mantissa : Nat := if shift ≥ 0 then b.mantissa <<< shift.toNat
      else b.mantissa >>> (-shift).toNat
    let biased : Nat := if mantissa < hiddenBit then 0 else (exponent + 1075).toNat
    Float.ofBits (UInt64.ofNat (sign + biased * hiddenBit + mantissa % hiddenBit))

end Binary

namespace Double

/-- The sign bit of a double. -/
def signBit (x : Float) : Bool := x.toBits ≥ 0x8000000000000000

/-- Reads a double. -/
def classify (x : Float) : DoubleClass :=
  let bits := x.toBits.toNat
  let negative := signBit x
  let exponent : Nat := bits / Binary.hiddenBit % 2048
  let fraction : Nat := bits % Binary.hiddenBit
  if exponent = 2047 then
    if fraction = 0 then .infinite negative else .notANumber
  else if exponent = 0 then .finite ⟨negative, fraction, -1074⟩
  else .finite ⟨negative, fraction + Binary.hiddenBit, (exponent : Int) - 1075⟩

/-- Whether a double is neither NaN nor infinite. -/
def isFinite (x : Float) : Bool :=
  match classify x with
  | .finite _ => true
  | _ => false

/-- The integer that a double equals, if it is a finite one without a fraction. -/
def toInt? (x : Float) : Option Int :=
  match classify x with
  | .finite b => if b.isWhole then some b.truncate else none
  | _ => none

/-- A quotient rounded to the nearest integer, a half to the even one. -/
def roundHalfEven (dividend divisor : Nat) : Nat :=
  let quotient := dividend / divisor
  let twice := 2 * (dividend % divisor)
  if twice > divisor ∨ (twice = divisor ∧ quotient % 2 = 1) then quotient + 1 else quotient

/-- The nearest double to an integer of at most a thousand bits. -/
def ofInt (n : Int) : Float :=
  let excess := Nat.log2 n.natAbs + 1 - 53
  Binary.toDouble ⟨n < 0, roundHalfEven n.natAbs (Nat.pow 2 excess), excess⟩

/-- The least and the greatest 64-bit integer. -/
def leastInt64 : Int := -0x8000000000000000

@[inherit_doc leastInt64]
def greatestInt64 : Int := 0x7FFFFFFFFFFFFFFF

/-- The nearest 64-bit integer: in range the fraction is cut off, beyond it the nearer end is
taken, and NaN counts as zero. -/
def clampInt64 (x : Float) : Int :=
  match classify x with
  | .notANumber => 0
  | .infinite negative => if negative then leastInt64 else greatestInt64
  | .finite b => max leastInt64 (min greatestInt64 b.truncate)

/-- The remainder of a division whose quotient is cut off to an integer, exactly. It has the sign of
the dividend; there is none for an infinite dividend or a zero divisor. -/
def remainder (x y : Float) : Float :=
  let undefined : Float := 0.0 / 0.0
  match classify x, classify y with
  | .finite a, .finite b =>
    if b.mantissa = 0 then undefined
    else
      let exponent := min a.exponent b.exponent
      let dividend := a.mantissa <<< (a.exponent - exponent).toNat
      let divisor := b.mantissa <<< (b.exponent - exponent).toNat
      Binary.toDouble ⟨a.negative, dividend % divisor, exponent⟩
  | .finite _, .infinite _ => x
  | _, _ => undefined

end Double

end PipeExpr
