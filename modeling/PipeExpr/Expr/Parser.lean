import PipeExpr.Expr.Basic
import PipeExpr.Source.Scanner

/-!
# Reading expressions

**A reader over the tokens of a source.** The source is scanned first, up to its end or to a lexical
error; the reader then walks over the tokens. Its state survives errors: what has been read stays
read, recoverable errors are recorded on the way, and the depth of nesting is counted and given back
on every exit.

**The grammar is open at one point.** Each construct is a function of the reader for nested
expressions, and the knot is tied once, in `expression`, where nesting is counted. Loops and the
knot carry fuel; every turn reads a token, so one more than there are tokens is enough, and
`Failure.exhausted` never comes out of `parse`.

**A lexical error comes last.** When the reader fetches the end of a scan that failed, the lexical
error is recorded, and errors of syntax that follow from the missing rest are dropped.
-/

namespace PipeExpr

/-- Switches of the language. -/
structure Options where
  /-- Accept `??`. -/
  nullish : Bool := true
  /-- Accept `?.` and `?[`. -/
  chaining : Bool := true
  /-- Accept pipe segments. -/
  pipes : Bool := true
  /-- Read `NaN` and `Inf` as numbers. -/
  ieee : Bool := true
  /-- How deep expressions and prefix operators may nest. -/
  maxDepth : Nat := 32
  deriving DecidableEq, Repr, Inhabited

namespace Parse

/-- The state of a reader. -/
structure State where
  /-- The tokens not yet read, without the end of the source. -/
  rest : List Token
  /-- How the tokens end. -/
  ending : Scanner.Ending
  /-- The errors recorded so far. -/
  errors : Array Diagnostic
  /-- How deep the reader is nested. -/
  depth : Nat
  deriving Inhabited

/-- Why a reader gives up. -/
inductive Failure where
  /-- An error in the source. -/
  | fault (d : Diagnostic)
  /-- The bound on the number of turns was reached. -/
  | exhausted
  deriving Inhabited

end Parse

/-- A reader: it changes the state, and gives a result or a failure. -/
abbrev Parse (α : Type) := ExceptT Parse.Failure (StateM Parse.State) α

namespace Parse

namespace State

/-- Records the lexical error if the tokens are used up. -/
def noteEnding (s : State) : State :=
  match s.rest, s.ending.fault with
  | [], some d => { s with errors := s.errors.push d }
  | _, _ => s

/-- The state in front of the first token. -/
def ofTokens (tokens : List Token) (ending : Scanner.Ending) : State :=
  noteEnding ⟨tokens, ending, #[], 0⟩

/-- The next token; behind the last one it is the end of the source. -/
def current (s : State) : Token :=
  match s.rest with
  | token :: _ => token
  | [] => .eof s.ending.position

/-- The state behind the next token. -/
def advance (s : State) : State :=
  match s.rest with
  | _ :: rest => noteEnding { s with rest }
  | [] => s

/-- Whether the end of a scan that failed has been reached. -/
def lexerFailed (s : State) : Bool := s.rest.isEmpty && s.ending.fault.isSome

/-- Keeps an error for the final report. Errors that follow from a failed scan are dropped. -/
def record (s : State) (d : Diagnostic) : State :=
  if s.lexerFailed && !d.code.isLexical then s else { s with errors := s.errors.push d }

/-- Drops tokens up to a pipe marker or the end of the source. -/
def skipToPipe (s : State) : State :=
  let rest := s.rest.dropWhile fun t => !t.kind.isPipe
  if s.rest.isEmpty then s else noteEnding { s with rest }

end State

/-! ## Primitives -/

/-- The next token. -/
def current : Parse Token := return (← get).current

/-- What the next token is. -/
def currentKind : Parse TokenKind := return (← get).current.kind

/-- Whether the next token is a given symbol. -/
def looksAt (s : Symbol) : Parse Bool := return (← get).current.kind.isSymbol s

/-- Reads the next token. -/
def advance : Parse Unit := modify State.advance

/-- Gives up with an error at a place. -/
def failAt {α : Type} (position : Position) (f : Fault) : Parse α :=
  throw (.fault (f.report position))

/-- Gives up with an error at the next token. -/
def fail {α : Type} (f : Fault) : Parse α := do failAt (← current).position f

/-- Records an error at a place and goes on. -/
def recordAt (position : Position) (f : Fault) : Parse Unit :=
  modify fun s => s.record (f.report position)

/-- Gives up because something else was expected. -/
def unexpected {α : Type} (expected : String) : Parse α := do
  fail (.unexpected (← current) expected)

/-- As `unexpected`, with a code of its own unless the source ends here. -/
def unexpectedAs {α : Type} (code : ErrorCode) (expected : String) : Parse α := do
  fail (.unexpectedAs code (← current) expected)

/-- Gives up because a feature is switched off. -/
def disabled {α : Type} (feature : Feature) : Parse α := do
  fail (.featureDisabled feature (← current).lexeme)

/-- Gives up where a bracket opened at a place should go on or be closed, but is not. -/
def notClosed {α : Type} (bracket : Bracket) (opened : Position) : Parse α := do
  let token ← current
  match token.kind with
  | .eof => failAt opened (.neverClosed bracket opened)
  | .symbol .as => fail .innerAlias
  | .pipe _ => fail (.innerPipe token.lexeme)
  | _ => unexpected ("',' or '" ++ bracket.closing.spelling ++ "'")

/-- Reads the symbol that closes a bracket opened at a place. -/
def close (bracket : Bracket) (opened : Position) : Parse Unit := do
  if ← looksAt bracket.closing then advance else notClosed bracket opened

/-- Runs a reader one level deeper, if there is room, and comes back whatever happens. -/
def nested {α : Type} (o : Options) (p : Parse α) : Parse α := do
  if (← get).depth ≥ o.maxDepth then fail (.maxDepthExceeded o.maxDepth)
  else
    fun s =>
      let (result, s) := p { s with depth := s.depth + 1 }
      (result, { s with depth := s.depth - 1 })

/-! ## Lists -/

/-- Reads items separated by commas up to the closing bracket, behind those already read, which
stand in reverse. Empty elements and a comma at the end are recorded and passed over. -/
def listItems {α : Type} (bracket : Bracket) (opened : Position) (item : Parse α) :
    Nat → List α → Parse (List α)
  | 0, _ => throw .exhausted
  | fuel + 1, items => do
    if ← looksAt bracket.closing then
      advance
      return items.reverse
    else if ← looksAt .comma then
      recordAt (← current).position .emptyElement
      advance
      listItems bracket opened item fuel items
    else if (← currentKind).isEof then notClosed bracket opened
    else
      let x ← item
      if ← looksAt .comma then
        let comma := (← current).position
        advance
        if ← looksAt bracket.closing then recordAt comma (.trailingComma bracket)
        listItems bracket opened item fuel (x :: items)
      else if ← looksAt bracket.closing then listItems bracket opened item fuel (x :: items)
      else notClosed bracket opened

/-! ## Primaries -/

/-- The key of an object entry that a token spells. -/
def objectKey? (token : Token) : Option String :=
  match token.kind with
  | .string s => some s
  | .identifier name => some name
  | .number x => some (Double.text x)
  | .boolean _ | .null | .symbol .as => some token.lexeme
  | _ => none

/-- Reads an entry of an object. -/
def objectEntry (expr : Parse Expr) : Parse (String × Expr) := do
  let token ← current
  match objectKey? token with
  | none => fail (.invalidObjectKey token)
  | some key =>
    advance
    if ← looksAt .colon then
      advance
      return (key, ← expr)
    else unexpectedAs .expectedToken "':' after object key"

/-- Reads a variable behind a dot at the start of an operand. -/
def leadingDot (o : Options) (optional : Bool) (position : Position) : Parse Expr := do
  if optional && !o.chaining then disabled .chaining
  else
    advance
    match ← currentKind with
    | .identifier name =>
      advance
      return .reference position name optional
    | _ => unexpectedAs .invalidProperty "a variable name"

/-- Reads an expression in parentheses. -/
def parenthesized (expr : Parse Expr) (position : Position) : Parse Expr := do
  advance
  if ← looksAt .rightParen then fail .emptyParens
  else
    let e ← expr
    close .paren position
    return e

/-- Reads a literal, a variable, a group, an array or an object. -/
def primary (o : Options) (expr : Parse Expr) (fuel : Nat) : Parse Expr := do
  let token ← current
  let position := token.position
  match token.kind with
  | .number x => advance; return .number position x
  | .string s => advance; return .string position s ⟨token.raw, token.singleQuoted⟩
  | .boolean b => advance; return .boolean position b
  | .null => advance; return .null position
  | .identifier name => advance; return .reference position name false
  | .symbol .dot => leadingDot o false position
  | .symbol .questionDot => leadingDot o true position
  | .symbol .leftParen => parenthesized expr position
  | .symbol .leftBracket =>
    advance
    return .array position (← listItems .square position expr fuel [])
  | .symbol .leftBrace =>
    advance
    return .object position (← listItems .brace position (objectEntry expr) fuel [])
  | _ => unexpected "an expression"

/-! ## Postfix chains -/

/-- The largest double that counts as a position: two to the power 63. -/
def greatestPosition : Float := 9223372036854775808.0

/-- The property that a token names behind a dot. A position has to be written in digits alone. -/
def property? (token : Token) : Option Property :=
  match token.kind with
  | .identifier name => some (.name name)
  | .boolean _ | .null | .symbol .as => some (.name token.lexeme)
  | .number x =>
    if token.lexeme.toList.all Text.isDigit && x ≤ greatestPosition then
      some (.position (Double.clampInt64 x))
    else none
  | _ => none

/-- Reads what stands behind a dot: a name, a position, or a key in parentheses. -/
def member (expr : Parse Expr) (target : Expr) (optional : Bool) : Parse Expr := do
  let token ← current
  match property? token with
  | some property =>
    advance
    return .member target.position target property optional
  | none =>
    if token.kind.isSymbol .leftParen then
      advance
      let key ← expr
      close .paren token.position
      return .index target.position target key optional
    else unexpectedAs .invalidProperty "a property name"

/-- Reads the end and the step of a slice behind its first colon. -/
def sliceRest (expr : Parse Expr) (target : Expr) (start : Option Expr) (optional : Bool)
    (opened : Position) : Parse Expr := do
  let stop ←
    if (← looksAt .colon) || (← looksAt .rightBracket) then pure none else some <$> expr
  let step ←
    if ← looksAt .colon then do
      advance
      if ← looksAt .rightBracket then pure none else some <$> expr
    else pure none
  close .square opened
  return .slice target.position target start stop step optional

/-- Reads what stands behind an opening bracket: a key or, if there is a colon, a slice. -/
def brackets (expr : Parse Expr) (target : Expr) (optional : Bool) (opened : Position) :
    Parse Expr := do
  if ← looksAt .rightBracket then fail .emptyIndex
  else if ← looksAt .colon then
    advance
    sliceRest expr target none optional opened
  else
    let first ← expr
    if ← looksAt .colon then
      advance
      sliceRest expr target (some first) optional opened
    else
      close .square opened
      return .index target.position target first optional

/-- Reads one step of a chain if there is one. -/
def postfixStep (o : Options) (expr : Parse Expr) (fuel : Nat) (target : Expr) :
    Parse (Option Expr) := do
  let token ← current
  match token.kind with
  | .symbol .dot =>
    advance
    some <$> member expr target false
  | .symbol .questionDot =>
    if o.chaining then do
      advance
      some <$> member expr target true
    else disabled .chaining
  | .symbol .leftBracket =>
    advance
    some <$> brackets expr target false token.position
  | .symbol .questionBracket =>
    if o.chaining then do
      advance
      some <$> brackets expr target true token.position
    else disabled .chaining
  | .symbol .leftParen =>
    if target.isCallable then do
      advance
      let arguments ← listItems .paren token.position expr fuel []
      return some (.call target.position target arguments)
    else fail .invalidCallTarget
  | _ => return none

/-- Reads the steps of a chain behind its first operand. -/
def postfixChain (o : Options) (expr : Parse Expr) (n : Nat) : Nat → Expr → Parse Expr
  | 0, _ => throw .exhausted
  | fuel + 1, target => do
    match ← postfixStep o expr n target with
    | some longer => postfixChain o expr n fuel longer
    | none => return target

/-! ## Operators -/

/-- Reads an operand with the prefix operators in front of it. -/
def prefixed (o : Options) (expr : Parse Expr) (n : Nat) : Nat → Parse Expr
  | 0 => throw .exhausted
  | fuel + 1 => do
    let token ← current
    match UnaryOp.ofKind? token.kind with
    | some op =>
      advance
      let operand ← nested o (prefixed o expr n fuel)
      return .unary token.position op operand
    | none => postfixChain o expr n n (← primary o expr n)

/-- Reads a power, which groups to the right. -/
def power (o : Options) (expr : Parse Expr) (n : Nat) : Nat → Parse Expr
  | 0 => throw .exhausted
  | fuel + 1 => do
    let base ← prefixed o expr n n
    if (BinaryOp.atLevel? 0 (← currentKind)).isSome then
      advance
      let exponent ← nested o (power o expr n fuel)
      return .binary base.position .power base exponent
    else return base

/-- Reads further operands of the operators on a level, which group to the left. -/
def operands (o : Options) (level : Nat) (operand : Parse Expr) : Nat → Expr → Parse Expr
  | 0, _ => throw .exhausted
  | fuel + 1, left => do
    match BinaryOp.atLevel? level (← currentKind) with
    | none => return left
    | some op =>
      if op = .nullCoalesce && !o.nullish then disabled .nullish
      else
        advance
        let right ← operand
        operands o level operand fuel (.binary left.position op left right)

/-- Reads an expression of binary operators up to a level. -/
def level (o : Options) (expr : Parse Expr) (n : Nat) : Nat → Parse Expr
  | 0 => power o expr n n
  | k + 1 => do
    let left ← level o expr n k
    operands o (k + 1) (level o expr n k) n left

/-- Reads a conditional or a plain expression of operators. -/
def conditional (o : Options) (expr : Parse Expr) (n : Nat) : Parse Expr := do
  let condition ← level o expr n BinaryOp.loosest
  if ← looksAt .question then
    let question := (← current).position
    advance
    let consequent ← expr
    if ← looksAt .colon then
      advance
      let alternate ← expr
      return .conditional condition.position condition consequent alternate
    else
      match ← currentKind with
      | .eof | .symbol .as | .pipe _ => notClosed .question question
      | _ => unexpected "':' in conditional expression"
  else return condition

/-- Reads an expression, one level deeper than what is around it. -/
def expression (o : Options) (n : Nat) : Nat → Parse Expr
  | 0 => throw .exhausted
  | fuel + 1 => nested o (conditional o (expression o n fuel) n)

/-! ## Programs -/

/-- Reads the name of an alias. -/
def aliasName : Parse String := do
  match ← currentKind with
  | .identifier name =>
    if isLocalName name && name.length > 1 then
      advance
      return name
    else fail (.invalidAlias name)
  | _ => unexpected "an alias name such as $result"

/-- Reads the alias of a segment if there is one. -/
def optionalAlias : Parse (Option String) := do
  if ← looksAt .as then
    advance
    let name ← aliasName
    if ← looksAt .as then fail (.duplicateAlias name)
    else return some name
  else return none

/-- Reads a segment of a chain for a handler whose marker stands at a place. A segment of any
handler but the one of the head must not be empty. -/
def stage (expr : Parse Expr) (handler : String) (position : Position) : Parse (Stage Expr) := do
  if handler ≠ sourceStage then
    match ← currentKind with
    | .eof | .pipe _ => failAt position (.emptyPipe handler)
    | .symbol .as => failAt position (.emptyPipeWithAlias handler)
    | _ => pure ()
  let body ← expr
  let boundAs ← optionalAlias
  return ⟨handler, boundAs, position, body⟩

/-- Reads a segment, recording what is wrong with it, and goes to the marker of the next one. -/
def segment (expr : Parse Expr) (handler : String) (position : Position) :
    Parse (Option (Stage Expr)) := fun s =>
  match stage expr handler position s with
  | (.ok read, s) =>
    let token := s.current
    if token.kind.isEof || token.kind.isPipe then (.ok (some read), s)
    else
      let fault := Fault.unexpected token "end of input or a pipe"
      (.ok (some read), (s.record (fault.report token.position)).skipToPipe)
  | (.error (.fault d), s) => (.ok none, (s.record d).skipToPipe)
  | (.error .exhausted, s) => (.error .exhausted, s)

/-- Reads the segments of a chain, behind those already read, which stand in reverse. -/
def segments (o : Options) (expr : Parse Expr) :
    Nat → String → Position → List (Stage Expr) → Parse (List (Stage Expr))
  | 0, _, _, _ => throw .exhausted
  | fuel + 1, handler, position, stages => do
    let stages := match ← segment expr handler position with
      | some read => read :: stages
      | none => stages
    let token ← current
    match token.kind with
    | .pipe name =>
      if !o.pipes then recordAt token.position (.featureDisabled .pipes token.lexeme)
      advance
      segments o expr fuel (name.getD defaultPipe) token.position stages
    | _ => return stages.reverse

/-- The program of a chain: a single segment without an alias is its expression. -/
def programOf (position : Position) : List (Stage Expr) → Expr
  | [⟨_, none, _, body⟩] => body
  | stages => .pipe position stages

end Parse

/-! ## Reading a source -/

/-- A reader of one source, between two calls. -/
structure Reader where
  /-- The switches of the language. -/
  options : Options
  /-- What is left to read, with the errors recorded so far. -/
  state : Parse.State

namespace Reader

/-- A reader over what a scanner has left. -/
def ofScanner (scanner : Scanner) (options : Options) : Reader :=
  let (tokens, ending) := scanner.tokens
  ⟨options, .ofTokens tokens ending⟩

/-- A reader at the start of a source. -/
def ofSource (source : String) (options : Options) : Reader :=
  ofScanner (.ofSource source options.ieee) options

/-- A bound on the turns of every loop: each one reads a token. -/
def fuel (r : Reader) : Nat := r.state.rest.length + 1

/-- Reads one expression. An error is returned and not recorded. -/
def expression (r : Reader) : Except Parse.Failure Expr × Reader :=
  let (result, state) := Parse.expression r.options r.fuel r.fuel r.state
  (result, { r with state })

/-- The errors recorded so far, which are forgotten. -/
def takeErrors (r : Reader) : Diagnostics × Reader :=
  (r.state.errors.toList, { r with state := { r.state with errors := #[] } })

/-- Reads a whole program: one expression with any number of pipe segments behind it. The errors are
those of all segments and any recorded before; if the bound on turns were ever reached, there would
be none. -/
def program (r : Reader) : Except Diagnostics Expr × Reader :=
  let token := r.state.current
  let start := token.position
  if token.kind.isEof then
    let (errors, r) := r.takeErrors
    (.error (if errors.isEmpty then [Fault.emptyExpression.report start] else errors), r)
  else
    let expr := Parse.expression r.options r.fuel r.fuel
    match Parse.segments r.options expr r.fuel sourceStage start [] r.state with
    | (.ok stages, state) =>
      let (errors, r) := takeErrors { r with state }
      (if errors.isEmpty then .ok (Parse.programOf start stages) else .error errors, r)
    | (.error _, state) => (.error [], { r with state })

end Reader

/-- Reads a source as a program, or gives all errors in it. -/
def parse (source : String) (options : Options) : Except Diagnostics Expr :=
  ((Reader.ofSource source options).program).1

end PipeExpr
