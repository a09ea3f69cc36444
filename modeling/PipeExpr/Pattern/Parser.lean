import PipeExpr.Pattern.Bracket

/-!
# Reading patterns

`Pattern.ofText?` reads the written form of a pattern, or tells that it is not well formed. There is
no look-around and there are no references back to groups, so a pattern always describes a regular
set of texts.

**Termination.** Every function that calls itself in more than one way consumes a character before
each call and takes the number of calls that are left as its first argument; the number of
characters is enough.
-/

namespace PipeExpr.Pattern

open Read

/-! ## Characters, dots and line ends -/

/-- The pattern that matches one character of a set. -/
def Node.ofSet (s : CharSet) (depth : Nat) : Node := ⟨.char fun p => p.after.any s, depth, true⟩

/-- The pattern for one character under the flags. Without the flag `u`, a character beyond ASCII
has no other case, and two digits beyond ASCII stand for a part of a character. -/
def Node.ofChar (flags : Flags) (c : Char) (byte : Bool) : Option Node := do
  guard (flags.wide || Text.isAscii c || !(byte || flags.ignoreCase))
  return Node.ofSet (Bracket.folded flags (CharSet.single c)) 0

/-- The pattern for an escape or a plain character. -/
def Node.ofPrimitive (flags : Flags) : Primitive → Option Node
  | .literal c byte => Node.ofChar flags c byte
  | .set s => some (.ofSet s 0)
  | .look test => some ⟨.look test, 0, true⟩

/-- The pattern for a dot. -/
def Node.dot (flags : Flags) : Option Node := do
  guard flags.wide
  return Node.ofSet (fun c => flags.dotAll || !(c == '\n' || (flags.carriageReturn && c == '\r'))) 0

/-- Whether a line starts at a place. -/
def lineStart (flags : Flags) (p : Place) : Bool :=
  p.before.isNone || (flags.multiLine && (p.before == some '\n' ||
    (flags.carriageReturn && p.before == some '\r' && p.after != some '\n')))

/-- Whether a line ends at a place. -/
def lineEnd (flags : Flags) (p : Place) : Bool :=
  p.after.isNone || (flags.multiLine &&
    if flags.carriageReturn then
      p.after == some '\r' || (p.after == some '\n' && p.before != some '\r')
    else p.after == some '\n')

/-! ## Groups and repetitions -/

/-- Whether a character may stand in the name of a group. -/
def isNameChar (first : Bool) (c : Char) : Bool :=
  c == '_' || if first then Text.isAlphabetic c
    else Text.isAlphanumeric c || c == '.' || c == '[' || c == ']'

/-- Reads the name of a group, which no other group may have. -/
def groupName (cs : List Char) : Read Unit := do
  let name := cs.takeWhile (· != '>')
  let '>' :: rest := cs.dropWhile (· != '>') | failure
  guard !name.isEmpty
  guard ((name.take 1).all (isNameChar true) && (name.drop 1).all (isNameChar false))
  let name := String.ofList name
  guard !((← get).names.contains name)
  modify fun r => { r with rest, names := name :: r.names }

/-- The flags after a directive with the given letters: those after a hyphen are unset. A letter
must not be given twice, and a hyphen must not come last. -/
def Flags.directed (f : Flags) (letters : List Char) : Option Flags := do
  guard (letters.all fun c => c == '-' || Flags.letters.contains c)
  guard (letters.eraseDups.length = letters.length && letters.getLast? != some '-')
  let unset := letters.dropWhile (· != '-')
  return unset.foldl (·.set · false) ((letters.takeWhile (· != '-')).foldl (·.set · true) f)

/-- The start of a group, after `(`: whether it is a group, and not only a directive. -/
def groupStart : Read Bool := do
  space
  match (← get).rest with
  | '?' :: '=' :: _ | '?' :: '!' :: _ | '?' :: '<' :: '=' :: _ | '?' :: '<' :: '!' :: _ => failure
  | '?' :: 'P' :: '<' :: cs | '?' :: '<' :: cs =>
    groupName cs
    return true
  | '?' :: cs =>
    let ends := fun c => c == ':' || c == ')'
    let letters := cs.takeWhile (!ends ·)
    let flags ← (← flags).directed letters
    match cs.dropWhile (!ends ·) with
    | ')' :: rest =>
      guard !letters.isEmpty
      modify fun r => { r with rest, flags }
      return false
    | _ :: rest =>
      modify fun r => { r with rest, flags }
      return true
    | [] => failure
  | _ => return true

/-- Parts one after the other, the last one first. -/
def Node.sequence (nodes : List Node) : Node :=
  match nodes with
  | [node] => { node with repeatable := true }
  | _ => ⟨Pattern.ofList (nodes.reverse.map (·.pattern)),
      if nodes.isEmpty then 0 else (nodes.map (·.depth)).foldl max 0 + 1, true⟩

/-- Alternatives, the last one first. -/
def Node.choice (nodes : List Node) : Node :=
  match nodes with
  | [node] => node
  | _ => ⟨Pattern.oneOf (nodes.reverse.map (·.pattern)),
      (nodes.map (·.depth)).foldl max 0 + 1, true⟩

/-- Puts a repetition on the last of some parts. -/
def Node.repeatLast (least : Nat) (most : Option Nat) : List Node → Option (List Node)
  | node :: nodes =>
    if node.repeatable then
      some (⟨.rep node.pattern least most, node.depth + 1, true⟩ :: nodes)
    else none
  | [] => none

/-- The rest of a counted repetition, after `{`: the bounds. -/
def bounds : Read (Nat × Option Nat) := do
  space
  let least ← decimal
  let most ←
    if (← peek) = ',' then do
      advance
      if (← peek) = '}' then pure none
      else some <$> decimal
    else pure (some least)
  expect '}'
  space
  skipIf '?'
  guard (most.all (least ≤ ·))
  return (least, most)

/-- Alternatives up to the end of the group around them, or of the pattern. -/
def alternatives : Nat → Bool → List Node → List Node → Read Node
  | 0, _, _, _ => failure
  | fuel + 1, inGroup, branches, parts => do
    space
    let flags ← flags
    let result := Node.choice (Node.sequence parts :: branches)
    let repeated := fun (least : Nat) (most : Option Nat) (cs : List Char) => do
      let parts ← Node.repeatLast least most parts
      goTo cs
      skipIf '?'
      alternatives fuel inGroup branches parts
    match (← get).rest with
    | [] =>
      guard !inGroup
      return result
    | ')' :: cs =>
      guard inGroup
      goTo cs
      return result
    | '|' :: cs =>
      goTo cs
      alternatives fuel inGroup (Node.sequence parts :: branches) []
    | '(' :: cs =>
      goTo cs
      if ← groupStart then
        let group ← alternatives fuel true [] []
        modify fun r => { r with flags }
        alternatives fuel inGroup branches ({ group with depth := group.depth + 1 } :: parts)
      else alternatives fuel inGroup branches (⟨.empty, 0, false⟩ :: parts)
    | '[' :: cs =>
      goTo cs
      let set ← bracket fuel (← bracketStart)
      alternatives fuel inGroup branches (Node.ofSet set.set set.depth :: parts)
    | '?' :: cs => repeated 0 (some 1) cs
    | '*' :: cs => repeated 0 none cs
    | '+' :: cs => repeated 1 none cs
    | '{' :: cs =>
      goTo cs
      let (least, most) ← bounds
      let parts ← Node.repeatLast least most parts
      alternatives fuel inGroup branches parts
    | '\\' :: _ =>
      let node ← Node.ofPrimitive flags (← escape)
      alternatives fuel inGroup branches (node :: parts)
    | c :: cs =>
      goTo cs
      let node ← match c with
        | '.' => Node.dot flags
        | '^' => some ⟨.look (lineStart flags), 0, true⟩
        | '$' => some ⟨.look (lineEnd flags), 0, true⟩
        | _ => Node.ofChar flags c false
      alternatives fuel inGroup branches (node :: parts)

/-- How deep the parts of a pattern may be nested. -/
def nestingLimit : Nat := 250

/-- How large a pattern may be once its repetitions are written out. -/
def sizeLimit : Nat := 327680

/-- Reads a pattern from its text. -/
def ofText? (s : String) : Option (Pattern (Place → Bool)) := do
  let (node, _) ← (alternatives (s.length + 1) false [] []).run ⟨s.toList, {}, []⟩
  guard (node.depth ≤ nestingLimit && node.pattern.size ≤ sizeLimit)
  return node.pattern

end PipeExpr.Pattern