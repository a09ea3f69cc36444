import PipeExpr.Number.Decimal

/-!
# Numbers as text

Two layouts of the same digits. **Plain text**, which the language prints, never has an exponent:
integral values have no point, and the specials are spelled `NaN`, `Inf` and `-Inf`.
**Interchange text**, for documents, has an exponent for very small and very large values and marks
integral doubles by `.0`.
-/

namespace PipeExpr

namespace Double

/-- The shortest digits of a finite double, without an exponent. -/
def positionalText (b : Binary) : String :=
  let sign := if b.negative then "-" else ""
  sign ++ (Decimal.shortest .up b).positional

/-- The magnitude from which integral doubles are printed by their shortest digits. -/
def shortestFrom : Nat := 1000000000000000

/-- The text of a number in the language. Integral values below `shortestFrom` are printed exactly,
so that the negative zero is `0`. -/
def text (x : Float) : String :=
  match classify x with
  | .notANumber => "NaN"
  | .infinite negative => if negative then "-Inf" else "Inf"
  | .finite b =>
    if b.isWhole && b.wholePart < shortestFrom then toString b.truncate else positionalText b

/-- The text of a number as diagnostics show it: always the shortest digits, with the sign of a
zero. -/
def plainText (x : Float) : String :=
  match classify x with
  | .notANumber => "NaN"
  | .infinite negative => if negative then "-inf" else "inf"
  | .finite b => positionalText b

/-- The text of a finite double in a document. The exponent of its leading digit decides: from `-5`
to `15` the value is written out, otherwise it has an exponent with a sign. -/
def interchangeText (b : Binary) : String :=
  let sign := if b.negative then "-" else ""
  let d := Decimal.shortest .even b
  let digits := d.digitChars
  let leading : Int := d.exponent + digits.length - 1
  sign ++
    if b.mantissa = 0 then "0.0"
    else if -5 ≤ leading ∧ leading ≤ 15 then
      d.positional ++ if d.exponent ≥ 0 then ".0" else ""
    else
      let mantissa := match digits with
        | [] => []
        | [only] => [only]
        | first :: rest => first :: '.' :: rest
      String.ofList mantissa ++ "e" ++ (if leading < 0 then "-" else "+") ++
        toString leading.natAbs

end Double

end PipeExpr
