import PipeExpr.Library.Arguments

/-!
# Functions on objects, and on values of any kind
-/

namespace PipeExpr

namespace Functions

open Arguments

/-- The keys of an object. -/
def keys : HostFunction := fun arguments => do
  return .array ((Fields.names (← object 0 (← one arguments))).map .string)

/-- The values of an object. -/
def values : HostFunction := fun arguments => do
  return .array ((← object 0 (← one arguments)).map Prod.snd)

/-- The name of the family of a value. -/
def type : HostFunction := fun arguments => do
  return .string (← one arguments).kind.name

/-- A value as text. -/
def str : HostFunction := fun arguments => do
  return .string (← one arguments).asText

end Functions

end PipeExpr
