import PipeExpr.Document.Basic
import PipeExpr.Number.Text

/-!
# Writing documents

Two layouts of JSON text: **compact**, without any white space, and **indented**, with every item on
a line of its own, two spaces further in than what is around it. Empty arrays and objects are `[]`
and `{}` in both.
-/

namespace PipeExpr.Document

/-- A hexadecimal digit. -/
private def hexChar (n : Nat) : Char := (Nat.toDigits 16 n).headD '0'

/-- A character in a text of a document: quotes, backslashes and control characters are written as
escapes. -/
def escapedChar (c : Char) : List Char :=
  match c with
  | '"' => ['\\', '"']
  | '\\' => ['\\', '\\']
  | '\x08' => ['\\', 'b']
  | '\x0C' => ['\\', 'f']
  | '\n' => ['\\', 'n']
  | '\r' => ['\\', 'r']
  | '\t' => ['\\', 't']
  | _ =>
    if c.toNat < 0x20 then ['\\', 'u', '0', '0', hexChar (c.toNat / 16), hexChar (c.toNat % 16)]
    else [c]

/-- A text of a document. -/
def quoted (s : String) : String :=
  String.ofList ('"' :: s.toList.flatMap escapedChar ++ ['"'])

/-- A decimal; only finite doubles have a form. -/
def decimalText (x : Float) : String :=
  match Double.classify x with
  | .finite b => Double.interchangeText b
  | _ => "null"

/-- The text of a document that is neither an array nor an object. -/
def scalarText : Document → String
  | null => "null"
  | boolean b => if b then "true" else "false"
  | integer n => toString n
  | decimal x => decimalText x
  | string s => quoted s
  | array _ => "[]"
  | object _ => "\x7b\x7d"

/-! ## The compact layout -/

mutual

/-- Appends a document to `out`. -/
def write (out : String) : Document → String
  | array (d :: ds) => writeItems (write (out ++ "[") d) ds ++ "]"
  | object ((name, d) :: rest) =>
    writeFields (write (out ++ "\x7b" ++ quoted name ++ ":") d) rest ++ "\x7d"
  | d => out ++ scalarText d

/-- Appends further items of an array. -/
def writeItems (out : String) : List Document → String
  | [] => out
  | d :: ds => writeItems (write (out ++ ",") d) ds

/-- Appends further entries of an object. -/
def writeFields (out : String) : List (String × Document) → String
  | [] => out
  | (name, d) :: rest => writeFields (write (out ++ "," ++ quoted name ++ ":") d) rest

end

/-- The compact text of a document. -/
def compact (d : Document) : String := write "" d

/-! ## The indented layout -/

/-- The end of a line and the spaces before the next one. -/
def lineBreak (depth : Nat) : String := "\n".pushn ' ' (2 * depth)

mutual

/-- Appends a document that stands at a given depth of nesting. -/
def writeIndented (depth : Nat) (out : String) : Document → String
  | array (d :: ds) =>
    let line := lineBreak (depth + 1)
    writeIndentedItems depth (writeIndented (depth + 1) (out ++ "[" ++ line) d) ds ++
      lineBreak depth ++ "]"
  | object ((name, d) :: rest) =>
    let line := lineBreak (depth + 1)
    writeIndentedFields depth
      (writeIndented (depth + 1) (out ++ "\x7b" ++ line ++ quoted name ++ ": ") d) rest ++
      lineBreak depth ++ "\x7d"
  | d => out ++ scalarText d

/-- Appends further items of an array at a given depth. -/
def writeIndentedItems (depth : Nat) (out : String) : List Document → String
  | [] => out
  | d :: ds =>
    writeIndentedItems depth (writeIndented (depth + 1) (out ++ "," ++ lineBreak (depth + 1)) d) ds

/-- Appends further entries of an object at a given depth. -/
def writeIndentedFields (depth : Nat) (out : String) : List (String × Document) → String
  | [] => out
  | (name, d) :: rest =>
    let start := out ++ "," ++ lineBreak (depth + 1) ++ quoted name ++ ": "
    writeIndentedFields depth (writeIndented (depth + 1) start d) rest

end

/-- The indented text of a document. -/
def indented (d : Document) : String := writeIndented 0 "" d

end PipeExpr.Document
