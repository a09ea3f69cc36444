import PipeExpr.Number.Read
import PipeExpr.Pattern.Basic
import PipeExpr.Pattern.CharSet

/-!
# The reader of patterns

The state in which a pattern is read, and the steps that read single characters, rows of characters
and numbers.

**Flags.** What follows a directive such as `(?i)` is read under other flags until the group around
it ends; the flags are therefore part of the state of the reader and not of the pattern. Without the
flag `u` a pattern knows ASCII alone, and one that could match a part of a character is refused.
-/

namespace PipeExpr.Pattern

/-- The ways in which a pattern may be read that directives change. -/
structure Flags where
  /-- Letters match in either case (`i`). -/
  ignoreCase : Bool := false
  /-- `^` and `$` match at line ends (`m`). -/
  multiLine : Bool := false
  /-- A dot matches a line end too (`s`). -/
  dotAll : Bool := false
  /-- A carriage return ends lines too (`R`). -/
  carriageReturn : Bool := false
  /-- Classes take in the characters of all scripts (`u`). -/
  wide : Bool := true
  /-- White space and comments are passed over (`x`). -/
  spaced : Bool := false

/-- The letters of flags; `U` exchanges lazy and greedy repetition, which does not change where a
pattern matches. -/
def Flags.letters : List Char := ['i', 'm', 's', 'U', 'u', 'R', 'x']

/-- Sets one flag. -/
def Flags.set (f : Flags) (letter : Char) (value : Bool) : Flags :=
  match letter with
  | 'i' => { f with ignoreCase := value }
  | 'm' => { f with multiLine := value }
  | 's' => { f with dotAll := value }
  | 'R' => { f with carriageReturn := value }
  | 'u' => { f with wide := value }
  | 'x' => { f with spaced := value }
  | _ => f

/-- The state of the reader. -/
structure Reader where
  /-- The characters that are still to be read. -/
  rest : List Char
  /-- The flags in force. -/
  flags : Flags
  /-- The names of the groups so far. -/
  names : List String

/-- A step of the reader, which may find that the pattern is not well formed. -/
abbrev Read := StateT Reader Option

/-- A part of a pattern that has been read. -/
structure Node where
  /-- What the part matches. -/
  pattern : Pattern (Place → Bool)
  /-- How deep it is nested. -/
  depth : Nat
  /-- Whether a repetition may follow: not after a directive. -/
  repeatable : Bool := true

/-- A set of characters that has been read, and how deep it is nested. -/
structure SetNode where
  /-- The characters. -/
  set : CharSet
  /-- How deep the brackets are nested. -/
  depth : Nat

/-! ## Characters -/

/-- A text from its first character that is neither white space nor in a comment. A comment goes
from `#` to the end of the line. -/
def skipSpace (inComment : Bool) : List Char → List Char
  | [] => []
  | c :: cs =>
    if inComment then skipSpace (c != '\n') cs
    else if Text.isBlank c then skipSpace false cs
    else if c = '#' then skipSpace true cs
    else c :: cs

namespace Read

/-- The flags in force. -/
def flags : Read Flags := return (← get).flags

/-- Goes on to the given rest. -/
def goTo (rest : List Char) : Read Unit := modify fun r => { r with rest }

/-- Passes over white space and comments where they do not count. -/
def space : Read Unit := modify fun r =>
  if r.flags.spaced then { r with rest := skipSpace false r.rest } else r

/-- The next character; the pattern must not end here. -/
def peek : Read Char := do (← get).rest.head?

/-- Passes over one character. -/
def skip : Read Unit := modify fun r => { r with rest := r.rest.drop 1 }

/-- Passes over one character and the white space after it. -/
def advance : Read Unit := do skip; space

/-- Passes over one character, which must be the given one. -/
def expect (c : Char) : Read Unit := do
  guard ((← peek) == c)
  skip

/-- Passes over a character if it is the given one. -/
def skipIf (c : Char) : Read Unit := do
  if (← get).rest.head? = some c then skip

/-- The characters that pass a test, at most a number of them. -/
def takeUpTo (test : Char → Bool) : Nat → Read (List Char)
  | 0 => return []
  | n + 1 => do
    match (← get).rest with
    | c :: _ =>
      if test c then
        advance
        return c :: (← takeUpTo test n)
      else return []
    | [] => return []

/-- The characters from here on that pass a test. -/
def takeWhile (test : Char → Bool) : Read (List Char) := do
  takeUpTo test (← get).rest.length

/-- A decimal number below `2 ^ 32`, with white space around it. -/
def decimal : Read Nat := do
  goTo ((← get).rest.dropWhile Text.isBlank)
  let digits ← takeWhile Text.isDigit
  let _ ← takeWhile Text.isBlank
  guard !digits.isEmpty
  let n := digitsValue digits
  guard (n < 0x100000000)
  return n

end Read

end PipeExpr.Pattern
