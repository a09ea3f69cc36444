import PipeExpr.Text.Category

/-!
# Character classes

The classes by which the scanner of expressions, the text functions and the quoting of text tell
characters apart. Each has a part for ASCII that is spelled out and a part for the rest of the
repertoire that is read from the tables; the first keeps the common case fast and open to
computation in proofs.

**Blank and alphabetic characters never overlap.** A blank is excluded from the other classes
before any table is consulted, so the scanner cannot take one character for both.
-/

namespace PipeExpr.Text

/-- White space: the tab, the line ends, and every kind of space. -/
def isBlank (c : Char) : Bool :=
  let n := c.toNat
  (9 ≤ n && n ≤ 13) || n == 0x20 || n == 0x85 || n == 0xA0 || n == 0x1680 ||
    (0x2000 ≤ n && n ≤ 0x200A) || n == 0x2028 || n == 0x2029 || n == 0x202F || n == 0x205F ||
    n == 0x3000

/-- Whether a character is one of the 128 ASCII characters. -/
def isAscii (c : Char) : Bool := c.toNat < 128

/-- An ASCII letter. -/
def isAsciiLetter (c : Char) : Bool := ('a' ≤ c && c ≤ 'z') || ('A' ≤ c && c ≤ 'Z')

/-- An ASCII digit. -/
def isDigit (c : Char) : Bool := '0' ≤ c && c ≤ '9'

private def alphabeticExtra : RangeTable := .ofText CategoryTable.alphabeticExtra

/-- An alphabetic character: a letter, a letter number, or one of the marks and symbols that
count as alphabetic. -/
def isAlphabetic (c : Char) : Bool :=
  if isAscii c then isAsciiLetter c
  else !isBlank c &&
    let category := Category.of c
    category.isLetter || category == .nl || alphabeticExtra.contains c

/-- A number character: a decimal digit of any script, a letter number or another number. -/
def isNumeric (c : Char) : Bool :=
  if isAscii c then isDigit c else !isBlank c && (Category.of c).isNumber

/-- An alphabetic or number character. -/
def isAlphanumeric (c : Char) : Bool := isAlphabetic c || isNumeric c

private def graphemeExtendExtra : RangeTable := .ofText CategoryTable.graphemeExtendExtra

/-- A character that attaches to the one before it, such as a combining accent. -/
def extendsGrapheme (c : Char) : Bool :=
  !isAscii c &&
    let category := Category.of c
    category == .mn || category == .me || graphemeExtendExtra.contains c

/-- A character with a visible form of its own, the space included. -/
def isPrintable (c : Char) : Bool :=
  if isAscii c then 0x20 ≤ c.toNat && c.toNat < 0x7F else !(Category.of c).isInvisible

private def lowercaseExtra : RangeTable := .ofText CategoryTable.lowercaseExtra
private def uppercaseExtra : RangeTable := .ofText CategoryTable.uppercaseExtra

/-- A lowercase character. -/
def isLowercase (c : Char) : Bool :=
  if isAscii c then 'a' ≤ c && c ≤ 'z'
  else Category.of c == .ll || lowercaseExtra.contains c

/-- An uppercase character. -/
def isUppercase (c : Char) : Bool :=
  if isAscii c then 'A' ≤ c && c ≤ 'Z'
  else Category.of c == .lu || uppercaseExtra.contains c

/-- A character that has a case: lowercase, uppercase or titlecase. -/
def isCased (c : Char) : Bool :=
  isLowercase c || isUppercase c || Category.of c == .lt

private def caseIgnorableExtra : RangeTable := .ofText CategoryTable.caseIgnorableExtra

/-- A character that case mapping looks through when it asks what stands beside a letter. -/
def isCaseIgnorable (c : Char) : Bool :=
  (match Category.of c with
   | .mn | .me | .cf | .lm | .sk => true
   | _ => false) || caseIgnorableExtra.contains c

end PipeExpr.Text
