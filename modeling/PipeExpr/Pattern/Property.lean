import PipeExpr.Pattern.CharSet
import PipeExpr.Text.ScriptTable

/-!
# Character properties by name

The set behind `\p{…}`: a general category or a group of categories, a script, or one of the
properties for which there is a class of characters. Names are compared loosely: case, spaces,
hyphens, underscores and a leading `is` do not count.
-/

namespace PipeExpr.Pattern.Property

/-- The loose form of a name. -/
def loose (name : String) : String :=
  let lower := name.toList.map Char.toLower
  let bare (cs : List Char) := String.ofList
    (cs.filter fun c => Text.isAscii c && !(c == ' ' || c == '_' || c == '-'))
  match lower with
  | 'i' :: 's' :: cs => if bare cs = "c" then "isc" else bare cs
  | cs => bare cs

/-- The categories that a name in loose form stands for. -/
def categories? : String → Option (List Text.Category)
  | "l" | "letter" => some [.lu, .ll, .lt, .lm, .lo]
  | "lc" | "casedletter" => some [.lu, .ll, .lt]
  | "lu" | "uppercaseletter" => some [.lu]
  | "ll" | "lowercaseletter" => some [.ll]
  | "lt" | "titlecaseletter" => some [.lt]
  | "lm" | "modifierletter" => some [.lm]
  | "lo" | "otherletter" => some [.lo]
  | "m" | "mark" | "combiningmark" => some [.mn, .mc, .me]
  | "mn" | "nonspacingmark" => some [.mn]
  | "mc" | "spacingmark" => some [.mc]
  | "me" | "enclosingmark" => some [.me]
  | "n" | "number" => some [.nd, .nl, .no]
  | "nd" | "decimalnumber" | "digit" => some [.nd]
  | "nl" | "letternumber" => some [.nl]
  | "no" | "othernumber" => some [.no]
  | "p" | "punctuation" | "punct" => some [.pc, .pd, .ps, .pe, .pi, .pf, .po]
  | "pc" | "connectorpunctuation" => some [.pc]
  | "pd" | "dashpunctuation" => some [.pd]
  | "ps" | "openpunctuation" => some [.ps]
  | "pe" | "closepunctuation" => some [.pe]
  | "pi" | "initialpunctuation" => some [.pi]
  | "pf" | "finalpunctuation" => some [.pf]
  | "po" | "otherpunctuation" => some [.po]
  | "s" | "symbol" => some [.sm, .sc, .sk, .so]
  | "sm" | "mathsymbol" => some [.sm]
  | "sc" | "currencysymbol" => some [.sc]
  | "sk" | "modifiersymbol" => some [.sk]
  | "so" | "othersymbol" => some [.so]
  | "z" | "separator" => some [.zs, .zl, .zp]
  | "zs" | "spaceseparator" => some [.zs]
  | "zl" | "lineseparator" => some [.zl]
  | "zp" | "paragraphseparator" => some [.zp]
  | "c" | "other" => some [.cc, .cf, .co, .cn]
  | "cc" | "control" | "cntrl" => some [.cc]
  | "cf" | "format" => some [.cf]
  | "co" | "privateuse" => some [.co]
  | "cn" | "unassigned" => some [.cn]
  | _ => none

/-- The set of a general category, of all characters, of the assigned ones, or of ASCII. -/
def category? (name : String) : Option CharSet :=
  match name with
  | "any" => some fun _ => true
  | "assigned" => some fun c => Text.Category.of c != .cn
  | "ascii" => some Text.isAscii
  | _ => (categories? name).map fun categories c => categories.contains (Text.Category.of c)

/-- The entries of the table of scripts: names in loose form, and ranges. -/
private def scripts : List (List String × String) :=
  (Text.ScriptTable.scripts.splitOn ";").filterMap fun entry =>
    match Text.tableRows entry with
    | names :: ranges => some ((names.splitOn "/").map loose, " ".intercalate ranges)
    | [] => none

/-- The characters of a script. -/
def script? (name : String) : Option CharSet :=
  (scripts.find? fun entry => entry.1.contains name).map fun entry =>
    (Text.RangeTable.ofText entry.2).contains

/-- The properties that hold or do not hold. -/
def binary? : String → Option CharSet
  | "alpha" | "alphabetic" => some Text.isAlphabetic
  | "lower" | "lowercase" => some Text.isLowercase
  | "upper" | "uppercase" => some Text.isUppercase
  | "space" | "wspace" | "whitespace" => some Text.isBlank
  | "cased" => some Text.isCased
  | "ci" | "caseignorable" => some Text.isCaseIgnorable
  | "grext" | "graphemeextend" => some Text.extendsGrapheme
  | "ahex" | "asciihexdigit" => some fun c => (Text.hexDigit? c).isSome
  | "joinc" | "joincontrol" => some fun c => c.toNat == 0x200C || c.toNat == 0x200D
  | _ => none

/-- The set that a single name stands for. -/
def ofName? (name : String) : Option CharSet :=
  binary? (loose name) <|> category? (loose name) <|> script? (loose name)

/-- The set of the characters whose named property has a given value. -/
def ofValue? (property value : String) : Option CharSet :=
  match loose property with
  | "gc" | "generalcategory" => category? (loose value)
  | "sc" | "script" => script? (loose value)
  | _ => none

/-- The parts of a text before and after the first occurrence of a separator. -/
def cut? (text separator : String) : Option (String × String) :=
  match text.splitOn separator with
  | first :: second :: rest => some (first, separator.intercalate (second :: rest))
  | _ => none

/-- The set for the text between the braces of `\p{…}`: a name, or a property and a value with `=`,
`:` or `!=` between them. -/
def ofText? (text : String) : Option CharSet :=
  match cut? text "!=", cut? text ":", cut? text "=" with
  | some (property, value), _, _ => (ofValue? property value).map (·.complement)
  | none, some (property, value), _ => ofValue? property value
  | none, none, some (property, value) => ofValue? property value
  | none, none, none => ofName? text

end PipeExpr.Pattern.Property
