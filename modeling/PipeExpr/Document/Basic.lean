import PipeExpr.Fields

/-!
# Documents

A document is what JSON text stands for. It keeps apart two kinds of numbers: **integers**, which
are held exactly, and **decimals**, which are doubles. A number with a point or an exponent is a
decimal, and so are the negative zero and integers that need more than 64 bits.
-/

namespace PipeExpr

/-- A document. -/
inductive Document where
  | null
  | boolean (b : Bool)
  /-- An integer, of 64 bits with or without a sign. -/
  | integer (n : Int)
  /-- A finite double. -/
  | decimal (x : Float)
  | string (s : String)
  | array (items : List Document)
  /-- The entries of an object, each name once, in the order in which the names first came up. -/
  | object (fields : List (String × Document))
  deriving Inhabited

end PipeExpr
