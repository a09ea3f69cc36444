import PipeExpr.Text.Class

/-!
# Quoted text

The form in which a text is shown inside other output: between double quotes, with every
character that would be misread written as an escape. Four control characters have a short
escape; quotes and backslashes take a backslash; what has no visible form of its own, or would
attach to its neighbour, is written by its code point in hexadecimal.
-/

namespace PipeExpr.Text

/-- A code point as an escape, `\u` and the hexadecimal number in braces. -/
def codePointEscape (c : Char) : List Char :=
  ['\\', 'u', '\x7b'] ++ Nat.toDigits 16 c.toNat ++ ['\x7d']

/-- One character of a quoted text. Of the two quote marks, `escapeDouble` and `escapeSingle` say
which ones take a backslash. -/
def escapeChar (escapeDouble escapeSingle : Bool) (c : Char) : List Char :=
  if c = '\x00' then ['\\', '0']
  else if c = '\t' then ['\\', 't']
  else if c = '\r' then ['\\', 'r']
  else if c = '\n' then ['\\', 'n']
  else if c = '\\' then ['\\', '\\']
  else if c = '"' then if escapeDouble then ['\\', '"'] else ['"']
  else if c = '\'' then if escapeSingle then ['\\', '\''] else ['\'']
  else if extendsGrapheme c || !isPrintable c then codePointEscape c
  else [c]

/-- A text between double quotes. -/
def quoted (s : String) : String :=
  String.ofList ('"' :: s.toList.flatMap (escapeChar true false) ++ ['"'])

/-- A character as it is named in a message, with both quote marks escaped. -/
def quotedChar (c : Char) : String := String.ofList (escapeChar true true c)

end PipeExpr.Text
