import PipeExpr.Library.Arguments
import PipeExpr.Machine.Access
import PipeExpr.Pattern.Match
import PipeExpr.Pattern.Parser
import PipeExpr.Text.Case
import PipeExpr.Text.Search

/-!
# Functions on texts

Lengths and positions count characters.
-/

namespace PipeExpr

namespace Functions

open Arguments

/-- The number of characters, items or entries; null has none. -/
def len : HostFunction := fun arguments => do
  match ← one arguments with
  | .string s => return .ofNat s.length
  | .array items => return .ofNat items.length
  | .object fields => return .ofNat fields.length
  | .null => return .ofNat 0
  | v => .error (.argument 0 .sized v.kind)

/-- The number of characters that a part of a text is to have, if it is given. -/
def substrCount (argument : Option Value) : Checked (Option Int64) :=
  match argument with
  | none => return none
  | some v => do
    let length ← integer 2 v
    if length < 0 then .error .negativeLength else return some (Int64.ofInt length)

/-- Where a part of a text of `length` characters starts and ends. A negative start counts from the
end. -/
def substrEnds (length start : Int64) (count : Option Int64) : Int64 × Int64 :=
  let first := if start < 0 then Max.max 0 (Access.saturatingAdd start length) else Min.min length start
  (first, (count.map fun count => Min.min length (Access.saturatingAdd first count)).getD length)

/-- The part of a text from a start on, of a given length or up to the end. -/
def substr : HostFunction := fun arguments => do
  count (.between 2 3) arguments
  let cs := (← string 0 (get arguments 0)).toList
  let start ← integer 1 (get arguments 1)
  let (first, last) := substrEnds (Int64.ofNat cs.length) (Int64.ofInt start) (← substrCount arguments[2]?)
  return .string (String.ofList (cs.extract first.toUInt64.toNat last.toUInt64.toNat))

/-- Whether a text holds another one, an array an equal item, or an object a key. -/
def contains : HostFunction := fun arguments => do
  count (.exactly 2) arguments
  let sought := get arguments 1
  match get arguments 0 with
  | .string s => return .boolean (Text.contains s (← string 1 sought))
  | .array items => return .boolean (items.any (·.equal sought))
  | .object fields => return .boolean (Fields.has fields (← string 1 sought))
  | v => .error (.argument 0 .sized v.kind)

/-- Whether a text starts with another one. -/
def startsWith : HostFunction := fun arguments => do
  count (.exactly 2) arguments
  let s ← string 0 (get arguments 0)
  return .boolean (Text.startsWith s (← string 1 (get arguments 1)))

/-- Whether a text ends with another one. -/
def endsWith : HostFunction := fun arguments => do
  count (.exactly 2) arguments
  let s ← string 0 (get arguments 0)
  return .boolean (Text.endsWith s (← string 1 (get arguments 1)))

/-- A text in upper case. -/
def upper : HostFunction := fun arguments => do
  return .string (Text.upper (← string 0 (← one arguments)))

/-- A text in lower case. -/
def lower : HostFunction := fun arguments => do
  return .string (Text.lower (← string 0 (← one arguments)))

/-- A text without the white space around it. -/
def trim : HostFunction := fun arguments => do
  return .string (Text.trim (← string 0 (← one arguments)))

/-- The parts of a text between separators; an empty separator gives the characters. -/
def split : HostFunction := fun arguments => do
  count (.exactly 2) arguments
  let s ← string 0 (get arguments 0)
  let separator ← string 1 (get arguments 1)
  return .array ((Text.split s separator).map .string)

/-- The items of an array as one text, with a separator between them, which is a comma if
omitted. -/
def join : HostFunction := fun arguments => do
  count (.between 1 2) arguments
  let items ← array 0 (get arguments 0)
  let separator ← match arguments[1]? with
    | some v => string 1 v
    | none => pure ","
  return .string (Text.join (items.map Value.asText) separator)

/-- A text with every occurrence of a part replaced. -/
def replace : HostFunction := fun arguments => do
  count (.exactly 3) arguments
  let s ← string 0 (get arguments 0)
  let part ← string 1 (get arguments 1)
  let replacement ← string 2 (get arguments 2)
  return .string (Text.replace s part replacement)

/-- Whether a pattern matches somewhere in a text. -/
def «matches» : HostFunction := fun arguments => do
  count (.exactly 2) arguments
  let s ← string 0 (get arguments 0)
  match Pattern.ofText? (← string 1 (get arguments 1)) with
  | some pattern => return .boolean (pattern.occursIn s)
  | none => .error .invalidPattern

end Functions

end PipeExpr
