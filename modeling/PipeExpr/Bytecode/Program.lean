import PipeExpr.Bytecode.Instruction
import PipeExpr.Value

/-!
# Programs

A program is the main instruction stream with its tables: the constants, which also hold the names
of locals, functions and pipes; the context variables that it may read; and one stream per pipe
stage after the first, to which pipe instructions refer by number. Nothing else is needed to run it,
as often as wanted and against different contexts.

The second half of the module lists a program for a reader.
-/

namespace PipeExpr

/-- A compiled program. -/
structure Program where
  /-- The main stream. -/
  main : Code
  /-- Literals, and the names that instructions refer to. -/
  constants : Array Value := #[]
  /-- The distinct names of context variables. -/
  contextVars : Array String := #[]
  /-- The streams of the pipe stages. -/
  blocks : Array Code := #[]
  deriving Inhabited

namespace Program

/-- The constant at an index as a name: names are text constants. -/
def nameAt? (p : Program) (index : Nat) : Option String :=
  p.constants[index]?.bind Value.string?

/-! ## Listings -/

/-- A number behind as many copies of `fill` as bring it to `width` characters. -/
def padded (fill : Char) (width n : Nat) : String :=
  String.ofList ((Nat.toDigits 10 n).leftpad width fill)

/-- A number in at least `width` columns, aligned to the right. -/
def alignRight (width n : Nat) : String := padded ' ' width n

/-- An offset in at least four digits. -/
def offsetText (n : Nat) : String := padded '0' 4 n

/-- The flags of an access, each behind a space. -/
def flagsText (operand : Nat) : String :=
  let flags := AccessFlags.ofNat operand
  (if flags.optional then " optional" else "") ++ (if flags.soft then " soft" else "")

/-- The line of one instruction. An index beyond its table is shown as a question mark. -/
def describe (p : Program) (i : Instruction) : String :=
  let name := i.opcode.name
  let nameAt := fun index => (p.nameAt? index).getD "?"
  let operand := i.slot 0
  match i.opcode with
  | .constant =>
    let constant := (p.constants[operand]?.map Value.display).getD "?"
    s!"{name} {alignRight 5 operand} ({constant})"
  | .loadVar =>
    let variableName := p.contextVars.getD operand "?"
    s!"{name} {alignRight 5 operand} ({variableName}){flagsText (i.slot 1)}"
  | .loadLocal | .storeLocal => s!"{name} {alignRight 5 operand} ({nameAt operand})"
  | .jump | .jumpIfFalse | .andShortCircuit | .orShortCircuit | .jumpIfNotNull =>
    s!"{name} -> {offsetText operand}"
  | .array | .object => s!"{name} {alignRight 5 operand}"
  | .index | .slice => s!"{name}{flagsText operand}"
  | .call => s!"{name} {nameAt operand}/{i.slot 1}"
  | .pipe =>
    let bound := if i.slot 1 = noAlias then "" else s!" as {nameAt (i.slot 1)}"
    s!"{name} {nameAt operand}{bound} block {i.slot 2}"
  | _ => name

/-- Appends the lines of a stream from `offset` on, up to its end or the first byte that cannot be
read; the length of the stream is fuel enough. -/
def listFrom (p : Program) (code : Code) : Nat → Nat → String → String
  | 0, _, out => out
  | fuel + 1, offset, out =>
    if offset < code.size then
      match decodeAt code offset with
      | .ok i =>
        listFrom p code fuel (offset + i.length)
          (out ++ offsetText offset ++ "  " ++ p.describe i ++ "\n")
      | .error e => out ++ offsetText offset ++ "  <" ++ e.message ++ ">\n"
    else out

/-- Appends the lines of a numbered table under a heading, or nothing if the table is empty. -/
def listTable (out heading : String) (rows : List String) : String :=
  if rows.isEmpty then out
  else rows.zipIdx.foldl (fun out (row, n) => out ++ alignRight 4 n ++ "  " ++ row ++ "\n")
    (out ++ heading)

/-- The listing of a whole program. -/
def listing (p : Program) : String :=
  let out := p.listFrom p.main p.main.size 0 "== main ==\n"
  let out := p.blocks.toList.zipIdx.foldl (fun out (block, n) =>
    p.listFrom block block.size 0 (out ++ s!"== block {n} ==\n")) out
  let out := listTable out "== constants ==\n" (p.constants.toList.map Value.display)
  listTable out "== context ==\n" p.contextVars.toList

end Program

end PipeExpr
