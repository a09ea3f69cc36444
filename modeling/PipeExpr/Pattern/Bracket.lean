import PipeExpr.Pattern.Escape

/-!
# Sets in brackets

A bracket lists characters, ranges, escapes and other brackets; `&&`, `--` and `~~` between lists
are intersection, difference and symmetric difference, from left to right.

**Case before complement.** Where letters match in either case, a set is closed under case first and
complemented after that, so `(?i)[^a]` does not match `A`.
-/

namespace PipeExpr.Pattern

open Read

/-- The operations between sets. -/
inductive SetOp where
  | intersection
  | difference
  | symmetricDifference

/-- The set that an operation makes of two. -/
def SetOp.apply : SetOp → CharSet → CharSet → CharSet
  | intersection, s, t => fun c => s c && t c
  | difference, s, t => fun c => s c && !t c
  | symmetricDifference, s, t => fun c => s c != t c

/-- A bracket that has been read in part. -/
structure Bracket where
  /-- Whether the bracket stands for the characters that are not in it. -/
  negated : Bool
  /-- What stands before the last operation, with the operation. -/
  left : Option (SetNode × SetOp)
  /-- The items after the last operation, the last one first. -/
  items : List SetNode

namespace Bracket

/-- Adds an item. -/
def add (b : Bracket) (item : SetNode) : Bracket := { b with items := item :: b.items }

/-- The union of the items after the last operation. -/
def union (b : Bracket) : SetNode :=
  match b.items with
  | [item] => item
  | items => ⟨CharSet.union (items.map (·.set)),
      if items.isEmpty then 0 else (items.map (·.depth)).foldl max 0 + 1⟩

/-- A set under the flags. -/
def folded (flags : Flags) (s : CharSet) : CharSet :=
  if flags.ignoreCase then s.ignoringCase flags.wide else s

/-- Everything that has been read, with the operations made. -/
def value (b : Bracket) (flags : Flags) : SetNode :=
  match b.left with
  | none => b.union
  | some (left, op) =>
    ⟨op.apply (folded flags left.set) (folded flags b.union.set), max left.depth b.union.depth + 1⟩

/-- Goes on after an operation. -/
def operate (b : Bracket) (flags : Flags) (op : SetOp) : Bracket :=
  { b with left := some (b.value flags, op), items := [] }

/-- The set that a finished bracket stands for. -/
def close (b : Bracket) (flags : Flags) : Option SetNode := do
  guard (flags.wide || !b.negated)
  let inner := b.value flags
  let set := folded flags inner.set
  return ⟨if b.negated then set.complement else set, inner.depth + 1⟩

end Bracket

/-- The start of a bracket, after `[`: a `^`, any number of hyphens, and a closing bracket that
comes first stand for themselves. -/
def bracketStart : Read Bracket := do
  space
  let negated := (← peek) == '^'
  if negated then advance
  let hyphens ← takeWhile (· == '-')
  let single := fun c => SetNode.mk (CharSet.single c) 0
  let items := hyphens.map single
  if items.isEmpty && (← peek) == ']' then
    advance
    let _ ← peek
    return ⟨negated, none, [single ']']⟩
  else
    let _ ← peek
    return ⟨negated, none, items⟩

/-- The name of an ASCII set after an opening bracket, with what follows: `:alpha:]` or
`:^alpha:]`. -/
def asciiSet? (flags : Flags) (cs : List Char) : Option (SetNode × List Char) := do
  let ':' :: cs := cs | none
  let (negated, cs) := match cs with
    | '^' :: cs => (true, cs)
    | cs => (false, cs)
  let ':' :: ']' :: rest := cs.dropWhile (· != ':') | none
  let set ← CharSet.named? (String.ofList (cs.takeWhile (· != ':')))
  let set := Bracket.folded flags set
  return (⟨if negated then set.complement else set, 0⟩, rest)

/-- One character or escape in a bracket. -/
def bracketPrimitive : Read Primitive := do
  let c ← peek
  if c = '\\' then escape
  else
    skip
    return .literal c false

/-- The character that a primitive stands for; without the flag `u` it has to be ASCII. -/
def bracketChar : Primitive → Read Char
  | .literal c _ => do
    guard ((← flags).wide || Text.isAscii c)
    return c
  | _ => failure

/-- Whether a hyphen, at the head of `cs`, makes a range with what follows. -/
def isRangeHyphen (flags : Flags) : List Char → Bool
  | '-' :: cs =>
    let next := (if flags.spaced then skipSpaceOnce cs else cs).head?
    next != some ']' && next != some '-'
  | _ => false
where
  /-- A text from its first character that is not white space; one `#` counts as white space. -/
  skipSpaceOnce (cs : List Char) : List Char :=
    match cs.dropWhile Text.isBlank with
    | '#' :: cs => cs.dropWhile Text.isBlank
    | cs => cs

/-- A character, a range or an escape in a bracket. -/
def bracketItem : Read SetNode := do
  let first ← bracketPrimitive
  space
  let _ ← peek
  if isRangeHyphen (← flags) (← get).rest then
    advance
    let last ← bracketPrimitive
    let low ← bracketChar first
    let high ← bracketChar last
    guard (low ≤ high)
    return ⟨CharSet.range low high, 0⟩
  else match first with
    | .set s => return ⟨s, 0⟩
    | _ => return ⟨CharSet.single (← bracketChar first), 0⟩

/-- A bracket up to its end. -/
def bracket : Nat → Bracket → Read SetNode
  | 0, _ => failure
  | fuel + 1, b => do
    space
    let flags ← flags
    match (← get).rest with
    | [] => failure
    | '[' :: cs =>
      match asciiSet? flags cs with
      | some (item, rest) =>
        guard (flags.wide || cs.take 2 != [':', '^'])
        goTo rest
        bracket fuel (b.add item)
      | none =>
        goTo cs
        let inner ← bracket fuel (← bracketStart)
        bracket fuel (b.add inner)
    | ']' :: cs =>
      goTo cs
      b.close flags
    | '&' :: '&' :: cs =>
      goTo cs
      bracket fuel (b.operate flags .intersection)
    | '-' :: '-' :: cs =>
      goTo cs
      bracket fuel (b.operate flags .difference)
    | '~' :: '~' :: cs =>
      goTo cs
      bracket fuel (b.operate flags .symmetricDifference)
    | _ =>
      let item ← bracketItem
      bracket fuel (b.add item)

end PipeExpr.Pattern
