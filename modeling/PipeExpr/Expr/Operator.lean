import PipeExpr.Source.Token

/-!
# Operators

The binary and prefix operators, their spelling, and the table of precedence: `BinaryOp.level` puts
every binary operator that groups to the left on one of ten levels, loosest last. Power stands
outside of the table, since it groups to the right and takes prefixed operands.
-/

namespace PipeExpr

/-- Binary operators. -/
inductive BinaryOp where
  | add | subtract | multiply | divide | modulo | power
  | bitAnd | bitOr | bitXor | shiftLeft | shiftRight
  | equal | notEqual | lessThan | greaterThan | lessEqual | greaterEqual
  | and | or
  /-- The left operand unless it is null or missing. -/
  | nullCoalesce
  deriving DecidableEq, Repr, Inhabited

namespace BinaryOp

/-- All binary operators. -/
def all : List BinaryOp :=
  [add, subtract, multiply, divide, modulo, power,
   bitAnd, bitOr, bitXor, shiftLeft, shiftRight,
   equal, notEqual, lessThan, greaterThan, lessEqual, greaterEqual,
   and, or, nullCoalesce]

/-- The symbol of an operator. Power and inequality have a second one, see `ofSymbol?`. -/
def symbol : BinaryOp → Symbol
  | add => .plus | subtract => .minus | multiply => .star | divide => .slash
  | modulo => .percent | power => .starStar
  | bitAnd => .ampersand | bitOr => .bar | bitXor => .tilde
  | shiftLeft => .ltLt | shiftRight => .gtGt
  | equal => .eqEq | notEqual => .bangEq
  | lessThan => .lt | greaterThan => .gt | lessEqual => .ltEq | greaterEqual => .gtEq
  | and => .ampAmp | or => .barBar | nullCoalesce => .questionQuestion

/-- The spelling of an operator. -/
def spelling (op : BinaryOp) : String := op.symbol.spelling

/-- The operator that a symbol stands for between two operands. -/
def ofSymbol? : Symbol → Option BinaryOp
  | .plus => some add | .minus => some subtract | .star => some multiply
  | .slash => some divide | .percent => some modulo
  | .starStar | .caret => some power
  | .ampersand => some bitAnd | .bar => some bitOr | .tilde => some bitXor
  | .ltLt => some shiftLeft | .gtGt => some shiftRight
  | .eqEq => some equal | .bangEq | .ltGt => some notEqual
  | .lt => some lessThan | .gt => some greaterThan
  | .ltEq => some lessEqual | .gtEq => some greaterEqual
  | .ampAmp => some and | .barBar => some or | .questionQuestion => some nullCoalesce
  | _ => none

/-- The operator with a given spelling. -/
def ofSpelling? (s : String) : Option BinaryOp := all.find? (·.spelling = s)

/-- The level of an operator, from the tightest at one to the loosest; power is on level zero. -/
def level : BinaryOp → Nat
  | power => 0
  | multiply | divide | modulo => 1
  | add | subtract => 2
  | shiftLeft | shiftRight => 3
  | lessThan | greaterThan | lessEqual | greaterEqual => 4
  | equal | notEqual => 5
  | bitAnd => 6
  | bitXor => 7
  | bitOr => 8
  | and => 9
  | or => 10
  | nullCoalesce => 11

/-- The loosest level. -/
def loosest : Nat := 11

/-- The operator of a given level that a token stands for. -/
def atLevel? (level : Nat) (kind : TokenKind) : Option BinaryOp :=
  match kind with
  | .symbol s => (ofSymbol? s).filter (·.level == level)
  | _ => none

@[simp] theorem ofSymbol?_symbol (op : BinaryOp) : ofSymbol? op.symbol = some op := by
  cases op <;> rfl

theorem level_le_loosest (op : BinaryOp) : op.level ≤ loosest := by
  cases op <;> decide

end BinaryOp

/-- Prefix operators. -/
inductive UnaryOp where
  /-- The negative of a number. -/
  | negate
  /-- The opposite of the truth of a value. -/
  | not
  /-- The complement of an integer. -/
  | bitNot
  deriving DecidableEq, Repr, Inhabited

namespace UnaryOp

/-- All prefix operators. -/
def all : List UnaryOp := [negate, not, bitNot]

/-- The symbol of an operator. -/
def symbol : UnaryOp → Symbol
  | negate => .minus
  | not => .bang
  | bitNot => .tilde

/-- The spelling of an operator. -/
def spelling (op : UnaryOp) : String := op.symbol.spelling

/-- The operator with a given spelling. -/
def ofSpelling? (s : String) : Option UnaryOp := all.find? (·.spelling = s)

/-- The operator that a token stands for in front of an operand. -/
def ofKind? : TokenKind → Option UnaryOp
  | .symbol .bang => some not
  | .symbol .minus => some negate
  | .symbol .tilde => some bitNot
  | _ => none

end UnaryOp

end PipeExpr
