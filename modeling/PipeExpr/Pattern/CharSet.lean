import PipeExpr.Text.Fold

/-!
# Sets of characters in patterns

A set is its membership test. Patterns name some sets by an escape such as `\d` or by a name between
brackets such as `[:alpha:]`; all others are built from single characters and ranges.

Each named escape has a wide form, which takes in the characters of all scripts, and a narrow one
for ASCII alone.
-/

namespace PipeExpr.Pattern

/-- A set of characters. -/
abbrev CharSet := Char → Bool

namespace CharSet

/-- The set of one character. -/
def single (c : Char) : CharSet := (· == c)

/-- The characters from one to another, both included. -/
def range (low high : Char) : CharSet := fun c => low ≤ c && c ≤ high

/-- The characters of a text. -/
def ofText (s : String) : CharSet := fun c => s.toList.contains c

/-- The characters that are in one of some sets. -/
def union (sets : List CharSet) : CharSet := fun c => sets.any (· c)

/-- The characters that a set lacks. -/
def complement (s : CharSet) : CharSet := fun c => !s c

/-- The characters that differ from one of the set in case only; a narrow reading knows the ASCII
letters alone. -/
def ignoringCase (s : CharSet) (wide : Bool) : CharSet := fun c =>
  if wide then (Text.alike c).any s
  else s c || (Text.isAsciiLetter c && (s c.toUpper || s c.toLower))

/-- Digits: the decimal digits of all scripts, or those of ASCII. -/
def digit (wide : Bool) : CharSet := fun c =>
  if wide then Text.Category.of c == .nd else Text.isDigit c

/-- White space. -/
def blank (wide : Bool) : CharSet := fun c =>
  if wide then Text.isBlank c else (9 ≤ c.toNat && c.toNat ≤ 13) || c == ' '

/-- The characters of words: letters, marks, digits, connectors and the two joiners, or the ASCII
letters and digits and the underscore. -/
def word (wide : Bool) : CharSet := fun c =>
  if wide && !Text.isAscii c then
    let category := Text.Category.of c
    Text.isAlphabetic c || category.isMark || category == .nd || category == .pc ||
      c.toNat == 0x200C || c.toNat == 0x200D
  else Text.isAsciiLetter c || Text.isDigit c || c == '_'

/-- The visible ASCII characters. -/
private def visible : CharSet := range '!' '~'

/-- The ASCII set with a given name, as it is written between `[:` and `:]`. -/
def named? : String → Option CharSet
  | "alnum" => some fun c => Text.isAsciiLetter c || Text.isDigit c
  | "alpha" => some Text.isAsciiLetter
  | "ascii" => some Text.isAscii
  | "blank" => some fun c => c == '\t' || c == ' '
  | "cntrl" => some fun c => c.toNat < 0x20 || c.toNat == 0x7F
  | "digit" => some Text.isDigit
  | "graph" => some visible
  | "lower" => some (range 'a' 'z')
  | "print" => some (range ' ' '~')
  | "punct" => some fun c => visible c && !(Text.isAsciiLetter c || Text.isDigit c)
  | "space" => some (blank false)
  | "upper" => some (range 'A' 'Z')
  | "word" => some (word false)
  | "xdigit" => some fun c => (Text.hexDigit? c).isSome
  | _ => none

end CharSet

end PipeExpr.Pattern
