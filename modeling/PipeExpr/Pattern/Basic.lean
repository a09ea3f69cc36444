/-!
# Patterns

A pattern describes texts by what may follow what. Its leaves are tests of a **place** in a text,
which is a gap between two characters or an end: a leaf `look` holds at a place and stays there, a
leaf `char` goes on over the character after the place.

**The leaves are a parameter.** A pattern as it is read has tests as leaves; for matching against
one text the tests are replaced by the places at which they hold (`Pattern.map`), so that no test is
run twice at one place.
-/

namespace PipeExpr

/-- A gap in a text: the characters on either side, none at the ends. -/
structure Place where
  /-- The character before the gap. -/
  before : Option Char
  /-- The character after the gap. -/
  after : Option Char
  deriving DecidableEq, Repr

/-- Patterns whose leaves carry something of type `τ`. -/
inductive Pattern (τ : Type) where
  /-- Matches the empty text. -/
  | empty
  /-- Matches the empty text at certain places. -/
  | look (leaf : τ)
  /-- Matches one character at certain places. -/
  | char (leaf : τ)
  /-- One pattern and then another. -/
  | seq (first second : Pattern τ)
  /-- Either of two patterns. -/
  | alt (left right : Pattern τ)
  /-- A pattern a number of times in a row; `none` is no upper limit. -/
  | rep (body : Pattern τ) (least : Nat) (most : Option Nat)
  deriving Repr

namespace Pattern

/-- A pattern with its leaves replaced. -/
def map {σ τ : Type} (f : σ → τ) : Pattern σ → Pattern τ
  | empty => empty
  | look leaf => look (f leaf)
  | char leaf => char (f leaf)
  | seq a b => seq (a.map f) (b.map f)
  | alt a b => alt (a.map f) (b.map f)
  | rep p least most => rep (p.map f) least most

/-- The number of leaves and choices once every repetition is written out. -/
def size {τ : Type} : Pattern τ → Nat
  | empty => 0
  | look _ | char _ => 1
  | seq a b => a.size + b.size
  | alt a b => a.size + b.size + 1
  | rep p least none => max least 1 * p.size + 1
  | rep p least (some most) => most * p.size + (most - least)

/-- Patterns one after the other. -/
def ofList {τ : Type} : List (Pattern τ) → Pattern τ
  | [] => empty
  | [p] => p
  | p :: ps => seq p (ofList ps)

/-- Any one of some patterns; of none, the empty pattern. -/
def oneOf {τ : Type} : List (Pattern τ) → Pattern τ
  | [] => empty
  | [p] => p
  | p :: ps => alt p (oneOf ps)

end Pattern

end PipeExpr
