import Std.Data.HashMap
import PipeExpr.Text.CaseTable
import PipeExpr.Text.Class

/-!
# Upper and lower case

Case mapping of whole texts. A character goes to zero or more characters (`ß` to `SS`), by the
rows of `CaseTable`; a character without a row stays as it is.

**The final sigma.** Lowercasing is context free but for one letter: a capital sigma at the end of a
word becomes `ς` and elsewhere `σ`. It is at the end of a word when, with case-ignorable
characters passed over, a cased character stands before it and none after it.
-/

namespace PipeExpr.Text

/-- A map from code points to texts. -/
abbrev CaseMap := Std.HashMap Nat (List Char)

namespace CaseMap

/-- Adds the code points `first`, `first + step`, … up to `last`, shifted to start at `image`. -/
private def addRange (m : CaseMap) (first last step image : Nat) : CaseMap :=
  (List.range ((last - first) / step + 1)).foldl (fun m i =>
    m.insert (first + i * step) [Char.ofNat (image + i * step)]) m

/-- Adds one row of a table. -/
private def addRow (m : CaseMap) (row : String) : CaseMap :=
  match row.splitOn ">" with
  | [source, image] =>
    let (range, step) := match source.splitOn "/" with
      | [range, _] => (range, 2)
      | _ => (source, 1)
    match range.splitOn "-" with
    | [first, last] => m.addRange (hexNumber first) (hexNumber last) step (hexNumber image)
    | _ =>
      m.insert (hexNumber range) ((image.splitOn ".").map (Char.ofNat ∘ hexNumber))
  | _ => m

/-- Reads a map from the rows of the given tables. -/
def ofText (tables : List String) : CaseMap :=
  tables.foldl (fun m table => (tableRows table).foldl addRow m) ∅

/-- The image of a character. -/
def image (m : CaseMap) (c : Char) : List Char := m.getD c.toNat [c]

end CaseMap

private def upperMap : CaseMap := .ofText [CaseTable.upper, CaseTable.upperSpecial]
private def lowerMap : CaseMap := .ofText [CaseTable.lower, CaseTable.lowerSpecial]

/-- The uppercase form of one character. -/
def upperChar (c : Char) : List Char :=
  if isAscii c then [c.toUpper] else upperMap.image c

/-- The lowercase form of one character, without regard to its neighbours. -/
def lowerChar (c : Char) : List Char :=
  if isAscii c then [c.toLower] else lowerMap.image c

/-- Whether the nearest character that is not case-ignorable is cased. -/
def meetsCased (cs : List Char) : Bool :=
  match cs.dropWhile isCaseIgnorable with
  | [] => false
  | c :: _ => isCased c

/-- The lowercase form of `after`, where `before` holds what stands in front of it, nearest
first. -/
def lowerFrom (before after acc : List Char) : List Char :=
  match after with
  | [] => acc.reverse
  | c :: rest =>
    let image :=
      if c = 'Σ' then
        if meetsCased before && !meetsCased rest then ['ς'] else ['σ']
      else lowerChar c
    lowerFrom (c :: before) rest (image.reverse ++ acc)

/-- The uppercase form of a text. -/
def upper (s : String) : String := String.ofList (s.toList.flatMap upperChar)

/-- The lowercase form of a text. -/
def lower (s : String) : String := String.ofList (lowerFrom [] s.toList [])

end PipeExpr.Text
