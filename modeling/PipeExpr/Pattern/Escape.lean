import PipeExpr.Pattern.Property
import PipeExpr.Pattern.Reader

/-!
# Escapes in patterns

What a backslash and the characters after it stand for: a character, a set of characters, or a
condition on a place such as a word boundary.
-/

namespace PipeExpr.Pattern

open Read

/-- What one escape or plain character stands for. -/
inductive Primitive where
  /-- A character; `byte` tells that it is written by two hexadecimal digits. -/
  | literal (c : Char) (byte : Bool)
  /-- A set of characters. -/
  | set (s : CharSet)
  /-- A condition on a place. -/
  | look (test : Place → Bool)

/-- The character with a code point that is written in hexadecimal. -/
def charOfHex? (digits : List Char) : Option Char := do
  guard !digits.isEmpty
  let n := Text.hexNumber (String.ofList digits)
  guard (n.isValidChar)
  return Char.ofNat n

/-- The rest of a hexadecimal escape with a given number of digits, or with braces around its
digits. -/
def hexEscape (digits : Nat) : Read Primitive := do
  advance
  let isHex := fun c => (Text.hexDigit? c).isSome
  if (← peek) = '{' then
    advance
    let hex ← takeWhile isHex
    expect '}'
    space
    return .literal (← charOfHex? hex) false
  else
    let hex ← takeUpTo isHex digits
    guard (hex.length = digits)
    return .literal (← charOfHex? hex) (digits = 2)

/-- The rest of a property escape: one letter, or a name in braces. -/
def propertyEscape (negated : Bool) : Read Primitive := do
  advance
  let c ← peek
  let name ←
    if c = '{' then do
      advance
      let name ← takeWhile (· != '}')
      expect '}'
      pure name
    else do
      guard (c ≠ '\\')
      advance
      pure [c]
  let flags ← flags
  guard flags.wide
  let set ← Property.ofText? (String.ofList name)
  let set := if flags.ignoreCase then set.ignoringCase true else set
  return .set (if negated then set.complement else set)

/-- An escape for a set; without the flag `u`, the complement of such a set is refused. -/
def setEscape (set : Bool → CharSet) (negated : Bool) : Read Primitive := do
  skip
  let wide := (← flags).wide
  guard (wide || !negated)
  return .set (if negated then (set wide).complement else set wide)

/-- Whether a place has a character of a word before it. -/
def wordBefore (wide : Bool) (p : Place) : Bool := p.before.any (CharSet.word wide)

/-- Whether a place has a character of a word after it. -/
def wordAfter (wide : Bool) (p : Place) : Bool := p.after.any (CharSet.word wide)

/-- The start of a word. -/
def wordStart (wide : Bool) (p : Place) : Bool := !wordBefore wide p && wordAfter wide p

/-- The end of a word. -/
def wordEnd (wide : Bool) (p : Place) : Bool := wordBefore wide p && !wordAfter wide p

/-- The rest of an escape for a word boundary: the kind of boundary may follow in braces. Braces
that start with anything else belong to a repetition. -/
def boundaryEscape : Read Primitive := do
  let wide := (← flags).wide
  let plain := Primitive.look fun p => wordBefore wide p != wordAfter wide p
  let isNameChar := fun c => Text.isAsciiLetter c || c == '-'
  let start := (← get).rest
  if start.head? = some '{' then
    advance
    if isNameChar (← peek) then
      let name ← takeWhile isNameChar
      expect '}'
      match String.ofList name with
      | "start" => return .look (wordStart wide)
      | "end" => return .look (wordEnd wide)
      | "start-half" => return .look fun p => !wordBefore wide p
      | "end-half" => return .look fun p => !wordAfter wide p
      | _ => failure
    else
      goTo start
      return plain
  else return plain

/-- Whether the character after a backslash stands for itself: every ASCII character does that is
neither a letter nor a digit, but for the angle brackets. -/
def isEscapable (c : Char) : Bool :=
  Text.isAscii c && !(Text.isAsciiLetter c || Text.isDigit c || c == '<' || c == '>')

/-- An escape, from its backslash on. -/
def escape : Read Primitive := do
  skip
  let wide := (← flags).wide
  let c ← peek
  match c with
  | 'x' => hexEscape 2
  | 'u' => hexEscape 4
  | 'U' => hexEscape 8
  | 'p' => propertyEscape false
  | 'P' => propertyEscape true
  | 'd' => setEscape .digit false
  | 'D' => setEscape .digit true
  | 's' => setEscape .blank false
  | 'S' => setEscape .blank true
  | 'w' => setEscape .word false
  | 'W' => setEscape .word true
  | _ =>
    skip
    if isEscapable c then return .literal c false
    else match c with
      | 'a' => return .literal '\x07' false
      | 'f' => return .literal '\x0C' false
      | 't' => return .literal '\t' false
      | 'n' => return .literal '\n' false
      | 'r' => return .literal '\r' false
      | 'v' => return .literal '\x0B' false
      | 'A' => return .look (·.before.isNone)
      | 'z' => return .look (·.after.isNone)
      | 'b' => boundaryEscape
      | 'B' => return .look fun p => wordBefore wide p == wordAfter wide p
      | '<' => return .look (wordStart wide)
      | '>' => return .look (wordEnd wide)
      | _ => failure

end PipeExpr.Pattern
