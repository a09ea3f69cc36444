import PipeExpr.Expr.Operator

/-!
# Expressions

The tree of a program. Every node keeps the place where it starts; brackets that only group leave no
trace. A pipe chain is meaningful as the root of a tree only, though the type allows it anywhere.
-/

namespace PipeExpr

/-- What is named behind a dot. -/
inductive Property where
  | name (s : String)
  /-- A position, written as digits. -/
  | position (i : Int)
  deriving DecidableEq, Repr, Inhabited

/-- How a text literal was written. -/
structure LiteralStyle where
  /-- Without escapes. -/
  raw : Bool
  /-- Between single quotes. -/
  singleQuoted : Bool
  deriving DecidableEq, Repr, Inhabited

/-- One segment of a pipe chain. -/
structure Stage (ε : Type) where
  /-- The name of the handler. -/
  handler : String
  /-- The name under which later segments see the result. -/
  boundAs : Option String
  /-- The place of the marker, or of the first token for the head of a chain. -/
  position : Position
  /-- The expression that the handler evaluates. -/
  body : ε

/-- An expression. -/
inductive Expr where
  | number (pos : Position) (x : Float)
  | string (pos : Position) (s : String) (style : LiteralStyle)
  | boolean (pos : Position) (b : Bool)
  | null (pos : Position)
  /-- A variable of the context or, with a dollar sign in front, a pipe local. An `optional` one may
  be missing. -/
  | reference (pos : Position) (name : String) (optional : Bool)
  | unary (pos : Position) (op : UnaryOp) (operand : Expr)
  | binary (pos : Position) (op : BinaryOp) (left right : Expr)
  | conditional (pos : Position) (condition consequent alternate : Expr)
  | array (pos : Position) (items : List Expr)
  /-- An object with its entries in source order. -/
  | object (pos : Position) (entries : List (String × Expr))
  | call (pos : Position) (callee : Expr) (arguments : List Expr)
  | member (pos : Position) (target : Expr) (property : Property) (optional : Bool)
  | index (pos : Position) (target key : Expr) (optional : Bool)
  | slice (pos : Position) (target : Expr) (start stop step : Option Expr) (optional : Bool)
  | pipe (pos : Position) (stages : List (Stage Expr))
  deriving Inhabited

namespace Expr

/-- The place where an expression starts. -/
def position : Expr → Position
  | number p .. | string p .. | boolean p .. | null p | reference p .. | unary p .. | binary p ..
  | conditional p .. | array p .. | object p .. | call p .. | member p .. | index p .. | slice p ..
  | pipe p .. => p

/-- Whether an expression is a step of access that `??` softens. -/
def isAccess : Expr → Bool
  | member .. | index .. => true
  | _ => false

/-- Whether the grammar allows arguments behind an expression. -/
def isCallable : Expr → Bool
  | reference _ _ optional => !optional
  | call .. => true
  | _ => false

end Expr

/-- Whether a name is that of a pipe local. -/
def isLocalName (name : String) : Bool :=
  match name.toList with
  | '$' :: _ => true
  | _ => false

/-- The handler of the first segment of a chain. -/
def sourceStage : String := "source"

/-- The handler that a marker without a name stands for. -/
def defaultPipe : String := "default"

end PipeExpr
