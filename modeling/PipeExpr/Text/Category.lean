import PipeExpr.Text.CategoryTable
import PipeExpr.Text.RangeTable

/-!
# General categories of characters

`Category.of c` is the general category of a character. The run-length table is read once into the
array of the first code points of the runs, and a character is found in it by bisection.
-/

namespace PipeExpr.Text

/-- The general categories, named by their two-letter codes. -/
inductive Category where
  | lu | ll | lt | lm | lo
  | mn | mc | me
  | nd | nl | no
  | pc | pd | ps | pe | pi | pf | po
  | sm | sc | sk | so
  | zs | zl | zp
  | cc | cf | cs | co | cn
  deriving DecidableEq, Repr, Inhabited

namespace Category

/-- All categories. -/
def all : List Category :=
  [lu, ll, lt, lm, lo, mn, mc, me, nd, nl, no, pc, pd, ps, pe, pi, pf, po, sm, sc, sk, so,
   zs, zl, zp, cc, cf, cs, co, cn]

/-- The two-letter code of a category. -/
def code : Category → String
  | lu => "Lu" | ll => "Ll" | lt => "Lt" | lm => "Lm" | lo => "Lo"
  | mn => "Mn" | mc => "Mc" | me => "Me"
  | nd => "Nd" | nl => "Nl" | no => "No"
  | pc => "Pc" | pd => "Pd" | ps => "Ps" | pe => "Pe" | pi => "Pi" | pf => "Pf" | po => "Po"
  | sm => "Sm" | sc => "Sc" | sk => "Sk" | so => "So"
  | zs => "Zs" | zl => "Zl" | zp => "Zp"
  | cc => "Cc" | cf => "Cf" | cs => "Cs" | co => "Co" | cn => "Cn"

/-- The category with a given code. -/
def ofCode? (s : String) : Option Category := all.find? (·.code = s)

/-- Letters of any kind. -/
def isLetter : Category → Bool
  | lu | ll | lt | lm | lo => true
  | _ => false

/-- Decimal digits, letter numbers and other numbers. -/
def isNumber : Category → Bool
  | nd | nl | no => true
  | _ => false

/-- Marks of any kind. -/
def isMark : Category → Bool
  | mn | mc | me => true
  | _ => false

/-- Categories without a visible form of their own: separators, controls, format characters,
surrogates, private use and unassigned code points. -/
def isInvisible : Category → Bool
  | zs | zl | zp | cc | cf | cs | co | cn => true
  | _ => false

/-- One run of the table: its category and its length. -/
private def run? (row : String) : Option (Category × Nat) :=
  match row.toList with
  | a :: b :: digits =>
    (ofCode? (String.ofList [a, b])).map fun category =>
      (category, if digits.isEmpty then 1 else
        digits.foldl (fun n c => n * 10 + (c.toNat - '0'.toNat)) 0)
  | _ => none

/-- The first code point of every run beside the category of the run. -/
private structure Runs where
  /-- First code points, ascending. -/
  starts : Array Nat
  /-- Categories, in the same order. -/
  categories : Array Category

/-- The table in searchable form. -/
private def runs : Runs :=
  let step := fun (acc : Nat × Runs) (row : String) =>
    match run? row with
    | some (category, length) =>
      (acc.1 + length, ⟨acc.2.starts.push acc.1, acc.2.categories.push category⟩)
    | none => acc
  ((tableRows CategoryTable.runs).foldl step (0, ⟨#[], #[]⟩)).2

/-- The general category of a character. -/
def of (c : Char) : Category :=
  runs.categories.getD (rank runs.starts c.toNat - 1) cn

end Category

end PipeExpr.Text
