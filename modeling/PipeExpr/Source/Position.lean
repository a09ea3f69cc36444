/-!
# Places in a source text

Lines and columns count from one. Only a line feed ends a line, and every other character takes one
column.
-/

namespace PipeExpr

/-- A place in a source text. -/
structure Position where
  /-- The line, from one. -/
  line : Nat
  /-- The column, from one. -/
  column : Nat
  deriving DecidableEq, Repr, Inhabited

namespace Position

/-- The place of the first character. -/
def start : Position := ⟨1, 1⟩

/-- The place behind one character. -/
def step (p : Position) (c : Char) : Position :=
  if c = '\n' then ⟨p.line + 1, 1⟩ else ⟨p.line, p.column + 1⟩

/-- The place behind a row of characters. -/
def after (p : Position) (cs : List Char) : Position := cs.foldl step p

/-- A place as diagnostics show it. -/
def text (p : Position) : String := s!"{p.line}:{p.column}"

@[simp] theorem after_nil (p : Position) : p.after [] = p := rfl

@[simp] theorem after_cons (p : Position) (c : Char) (cs : List Char) :
    p.after (c :: cs) = (p.step c).after cs := rfl

end Position

end PipeExpr
