import PipeExpr.Text.Class

/-!
# Searching in texts

Occurrences of one row of characters in another, found from the left and without overlap. All
functions go over the text once and count the characters of a match that are still to be passed
over.
-/

namespace PipeExpr.Text

/-- Whether `part` occurs in a text. -/
def occursIn (part : List Char) : List Char → Bool
  | [] => part.isEmpty
  | c :: cs => part.isPrefixOf (c :: cs) || occursIn part cs

/-- The parts of a text between the occurrences of a separator that is not empty. `skip` characters
belong to a match; `part` and `parts` hold in reverse what has been read of the part and the parts
before it. -/
def splitFrom (separator : List Char) :
    List Char → Nat → List Char → List (List Char) → List (List Char)
  | [], _, part, parts => (part.reverse :: parts).reverse
  | _ :: cs, skip + 1, part, parts => splitFrom separator cs skip part parts
  | c :: cs, 0, part, parts =>
    if separator.isPrefixOf (c :: cs) then
      splitFrom separator cs (separator.length - 1) [] (part.reverse :: parts)
    else splitFrom separator cs 0 (c :: part) parts

/-- The parts of a text between the occurrences of a separator; an empty separator gives the single
characters. -/
def split (s separator : String) : List String :=
  if separator.isEmpty then s.toList.map String.singleton
  else (splitFrom separator.toList s.toList 0 [] []).map String.ofList

/-- Texts one after the other with a separator between them. -/
def join (parts : List String) (separator : String) : String :=
  match parts with
  | [] => ""
  | first :: rest => rest.foldl (fun out part => out ++ separator ++ part) first

/-- A text with every occurrence of a part that is not empty replaced. `skip` characters belong to a
match; `out` holds in reverse what has been written. -/
def replaceFrom (part replacement : List Char) : List Char → Nat → List Char → List Char
  | [], _, out => out.reverse
  | _ :: cs, skip + 1, out => replaceFrom part replacement cs skip out
  | c :: cs, 0, out =>
    if part.isPrefixOf (c :: cs) then
      replaceFrom part replacement cs (part.length - 1) (replacement.reverse ++ out)
    else replaceFrom part replacement cs 0 (c :: out)

/-- A text with every occurrence of a part replaced; an empty part is never replaced. -/
def replace (s part replacement : String) : String :=
  if part.isEmpty then s else String.ofList (replaceFrom part.toList replacement.toList s.toList 0 [])

/-- Whether a text holds another one. -/
def contains (s part : String) : Bool := occursIn part.toList s.toList

/-- Whether a text starts with another one. -/
def startsWith (s start : String) : Bool := start.toList.isPrefixOf s.toList

/-- Whether a text ends with another one. -/
def endsWith (s ending : String) : Bool := ending.toList.isSuffixOf s.toList

/-- A row of characters without the white space at its end. -/
def trimEnd (cs : List Char) : List Char := (cs.reverse.dropWhile isBlank).reverse

/-- A text without the white space around it. -/
def trim (s : String) : String := String.ofList (trimEnd (s.toList.dropWhile isBlank))

end PipeExpr.Text
