import PipeExpr.Number.Read
import PipeExpr.Source.Fault

/-!
# Scanning a source text into tokens

**One token at a time, over the characters that are left.** `scan` looks at the front of a list of
characters and gives the kind of the token there and how many characters it takes. It knows nothing
of lines: the scanner around it skips white space, cuts off the token and steps the position over
what was cut. Two bits of context reach it, whether the names `NaN` and `Inf` are numbers, and
whether the token before was a dot, after which a number never takes a fraction.

**Errors are final.** A failure stops the scanner for good; every later token is the end of the
source, at the place where scanning stopped.
-/

namespace PipeExpr

namespace Scan

/-! ## Failures -/

/-- Why no token could be read: the cause, how many characters stand before its place, and how many
before the place where reading stopped. -/
structure Failure where
  /-- What is wrong. -/
  fault : Fault
  /-- Characters in front of the place that is reported. -/
  before : Nat
  /-- Characters read when the scanner gave up. -/
  stopped : Nat

/-! ## Text literals -/

/-- The character that a one-letter escape stands for. -/
def shortEscape? : Char → Option Char
  | 'n' => some '\n'
  | 't' => some '\t'
  | 'r' => some '\r'
  | 'b' => some '\x08'
  | 'f' => some '\x0c'
  | '0' => some '\x00'
  | '/' => some '/'
  | '"' => some '"'
  | '\'' => some '\''
  | '\\' => some '\\'
  | _ => none

/-- The number spelled by four hexadecimal digits, or how many digits there are if fewer. -/
def hexQuad (cs : List Char) : Except Nat Nat :=
  let digits := (cs.take 4).map Text.hexDigit?
  let valid := digits.takeWhile Option.isSome
  if valid.length = 4 then
    .ok (valid.foldl (fun n d => n * 16 + d.getD 0) 0)
  else .error valid.length

/-- Whether a code unit is the first half of a surrogate pair. -/
def isHighSurrogate (n : Nat) : Bool := 0xD800 ≤ n && n < 0xDC00

/-- Whether a code unit is the second half of a surrogate pair. -/
def isLowSurrogate (n : Nat) : Bool := 0xDC00 ≤ n && n < 0xE000

/-- The character that a surrogate pair stands for. -/
def pairChar (high low : Nat) : Char :=
  Char.ofNat (0x10000 + (high - 0xD800) * 1024 + (low - 0xDC00))

/-- The character written by the digits behind `\u`, and how many characters they take; a first
half of a pair takes the escape of the second half with it. An error gives how far reading came. -/
def unicodeEscape (cs : List Char) : Except Nat (Char × Nat) :=
  match hexQuad cs with
  | .error n => .error n
  | .ok high =>
    if isHighSurrogate high then
      match cs.drop 4 with
      | '\\' :: 'u' :: rest =>
        match hexQuad rest with
        | .error n => .error (6 + n)
        | .ok low => if isLowSurrogate low then .ok (pairChar high low, 10) else .error 10
      | _ => .error 4
    else if isLowSurrogate high then .error 4
    else .ok (Char.ofNat high, 4)

/-- Reads a text literal behind its opening quote. `length` counts the characters read so far and
`value` holds the decoded ones in reverse; every turn reads at least one, so the number of
characters left is fuel enough. -/
def quotedBody (quote : Char) : Nat → List Char → Nat → List Char →
    Except Failure (List Char × Nat)
  | 0, _, length, _ => .error ⟨.unterminatedString quote false, 0, length⟩
  | _ + 1, [], length, _ => .error ⟨.unterminatedString quote false, 0, length⟩
  | fuel + 1, c :: cs, length, value =>
    if c = quote then .ok (value.reverse, length + 1)
    else if c = '\\' then
      match cs with
      | [] => .error ⟨.unterminatedString quote false, 0, length + 1⟩
      | 'u' :: rest =>
        match unicodeEscape rest with
        | .ok (d, n) => quotedBody quote fuel (rest.drop n) (length + 2 + n) (d :: value)
        | .error n => .error ⟨.invalidUnicodeEscape, length, length + 2 + n⟩
      | e :: rest =>
        match shortEscape? e with
        | some d => quotedBody quote fuel rest (length + 2) (d :: value)
        | none => .error ⟨.invalidEscape e, length, length + 1⟩
    else quotedBody quote fuel cs (length + 1) (c :: value)

/-- Reads a raw text literal behind its opening quote, where a doubled quote is a quote. -/
def rawBody (quote : Char) : List Char → Nat → List Char → Except Failure (List Char × Nat)
  | [], length, _ => .error ⟨.unterminatedString quote true, 0, length⟩
  | [c], length, value =>
    if c = quote then .ok (value.reverse, length + 1)
    else .error ⟨.unterminatedString quote true, 0, length + 1⟩
  | c :: d :: rest, length, value =>
    if c = quote then
      if d = quote then rawBody quote rest (length + 2) (quote :: value)
      else .ok (value.reverse, length + 1)
    else rawBody quote (d :: rest) (length + 1) (c :: value)

/-! ## Numbers -/

/-- How many characters the fraction at the front of a text takes: a dot with digits behind it. A dot
without digits is none. -/
def fractionLength : List Char → Nat
  | '.' :: rest =>
    let digits := rest.takeWhile Text.isDigit
    if digits.isEmpty then 0 else digits.length + 1
  | _ => 0

/-- How many characters the exponent at the front of a text takes: a marker with digits behind it,
and a sign between them or not. A marker without digits is none. -/
def exponentLength : List Char → Nat
  | [] => 0
  | marker :: rest =>
    if marker = 'e' ∨ marker = 'E' then
      let signLength := match rest with
        | '-' :: _ | '+' :: _ => 1
        | _ => 0
      let digits := (rest.drop signLength).takeWhile Text.isDigit
      if digits.isEmpty then 0 else 1 + signLength + digits.length
    else 0

/-- How many characters the number at the front of a text that starts with a digit takes: digits, a
fraction unless the token before was a dot, an exponent. -/
def numberLength (afterDot : Bool) (cs : List Char) : Nat :=
  let whole := (cs.takeWhile Text.isDigit).length
  let fraction := if afterDot then 0 else fractionLength (cs.drop whole)
  whole + fraction + exponentLength (cs.drop (whole + fraction))

/-! ## Words -/

/-- A character that a name may start with. -/
def startsName (c : Char) : Bool := Text.isAlphabetic c || c == '_' || c == '$'

/-- A character that a name may go on with. -/
def continuesName (c : Char) : Bool := Text.isAlphanumeric c || c == '_' || c == '$'

/-- The token of a word: a keyword, a special number if these are switched on, or a name. -/
def wordKind (ieee : Bool) (word : String) : TokenKind :=
  if word = "true" then .boolean true
  else if word = "false" then .boolean false
  else if word = "null" then .null
  else if word = "as" then .symbol .as
  else if ieee && word = "NaN" then .number (0.0 / 0.0)
  else if ieee && word = "Inf" then .number (1.0 / 0.0)
  else .identifier word

/-! ## Punctuation -/

/-- Whether an operand or an operator may start with a character: behind two hyphens it makes the
first of them a token of its own. -/
def startsOperand (c : Char) : Bool :=
  Text.isAlphanumeric c ||
    ['_', '$', '(', '[', '\x7b', '\'', '"', '+', '-', '*', '/', '%', '^', '&', '|', '~', '!', '<',
     '>', '=', '?'].contains c

/-- The token that starts with a single bar, seen from the characters behind it: a pipe marker if
there is a colon, with only ASCII letters before it, or else the bar. -/
def barKind (rest : List Char) : TokenKind × Nat :=
  let name := rest.takeWhile Text.isAsciiLetter
  match rest.drop name.length with
  | ':' :: _ => (.pipe (if name.isEmpty then none else some (String.ofList name)), name.length + 2)
  | _ => (.symbol .bar, 1)

/-- The token of the longest symbol with which a text starts. Two symbols depend on what follows:
two hyphens in front of an operand are two tokens, and a bar may open a pipe marker. -/
def symbolKind (s : Symbol) (cs : List Char) : TokenKind × Nat :=
  match s with
  | .minusMinus =>
    if ((cs.drop 2).head?.map startsOperand).getD false then (.symbol .minus, 1)
    else (.symbol .minusMinus, 2)
  | .bar => barKind (cs.drop 1)
  | s => (.symbol s, s.chars.length)

/-! ## One token -/

/-- A token read from the front of a text. -/
structure Found where
  /-- What it is. -/
  kind : TokenKind
  /-- How many characters it takes. -/
  length : Nat
  /-- Whether it is a text between single quotes. -/
  singleQuoted : Bool := false
  /-- Whether it is a raw text. -/
  raw : Bool := false

/-- Whether a character can open a text literal. -/
def isQuote (c : Char) : Bool := c == '"' || c == '\''

/-- Reads a text literal, raw if `r` stands in front of the quote; `rest` follows the quote. -/
def literal (raw : Bool) (quote : Char) (rest : List Char) : Except Failure Found :=
  let body := if raw then rawBody quote rest 2 [] else quotedBody quote (rest.length + 1) rest 1 []
  match body with
  | .ok (value, length) => .ok ⟨.string (String.ofList value), length, quote == '\'', raw⟩
  | .error failure => .error failure

/-- Reads the characters of a number as a double. -/
def numberOf (lexeme : List Char) : Except Failure Found :=
  match Numeral.ofChars? lexeme with
  | some n =>
    let value := n.toDouble
    if Double.isFinite value then .ok { kind := .number value, length := lexeme.length }
    else .error ⟨.numberOutOfRange (String.ofList lexeme), 0, lexeme.length⟩
  | none => .error ⟨.malformedNumber (String.ofList lexeme), 0, lexeme.length⟩

/-- Reads a number: its characters are cut off before anything is made of them. -/
def number (afterDot : Bool) (cs : List Char) : Except Failure Found :=
  numberOf (cs.take (numberLength afterDot cs))

/-- Reads a token that is not punctuation. -/
def word (ieee afterDot : Bool) (c : Char) (rest : List Char) : Except Failure Found :=
  if c = '=' then .error ⟨.strayEquals, 0, 0⟩
  else if isQuote c then literal false c rest
  else if Text.isDigit c then number afterDot (c :: rest)
  else if startsName c then
    let name := (c :: rest).takeWhile continuesName
    .ok { kind := wordKind ieee (String.ofList name), length := name.length }
  else .error ⟨.invalidCharacter c, 0, 0⟩

/-- Reads the token at the front of a text that does not start with white space. -/
def token (ieee afterDot : Bool) (cs : List Char) : Except Failure Found :=
  match Symbol.longest? cs with
  | some s =>
    let (kind, length) := symbolKind s cs
    .ok { kind, length }
  | none =>
    match cs with
    | [] => .ok { kind := .eof, length := 0 }
    | 'r' :: '"' :: rest => literal true '"' rest
    | 'r' :: '\'' :: rest => literal true '\'' rest
    | c :: rest => word ieee afterDot c rest

end Scan

/-! ## The scanner -/

/-- A scanner in the middle of a source text. -/
structure Scanner where
  /-- The characters that are left. -/
  rest : List Char
  /-- Where they start. -/
  position : Position
  /-- Whether `NaN` and `Inf` are numbers. -/
  ieee : Bool
  /-- Whether the last token was `.` or `?.`. -/
  afterDot : Bool
  /-- Whether a lexical error has ended the scan. -/
  halted : Bool

namespace Scanner

/-- A scanner at the start of a source. -/
def ofSource (source : String) (ieee : Bool) : Scanner :=
  ⟨source.toList, .start, ieee, false, false⟩

/-- Whether a number behind a token cannot take a fraction. -/
def isDot : TokenKind → Bool
  | .symbol .dot | .symbol .questionDot => true
  | _ => false

/-- The scanner with the white space in front passed over. -/
def skipBlanks (s : Scanner) : Scanner :=
  { s with
    rest := s.rest.dropWhile Text.isBlank
    position := s.position.after (s.rest.takeWhile Text.isBlank) }

/-- The next token or the error that ends the scan, and the scanner behind it. -/
def next (s : Scanner) : Except Diagnostic Token × Scanner :=
  if s.halted then (.ok (.eof s.position), s)
  else
    let s := s.skipBlanks
    match Scan.token s.ieee s.afterDot s.rest with
    | .ok found =>
      let lexeme := s.rest.take found.length
      (.ok ⟨found.kind, String.ofList lexeme, s.position, found.singleQuoted, found.raw⟩,
        { s with
          rest := s.rest.drop found.length
          position := s.position.after lexeme
          afterDot := isDot found.kind })
    | .error failure =>
      (.error (failure.fault.report (s.position.after (s.rest.take failure.before))),
        { s with
          rest := s.rest.drop failure.stopped
          position := s.position.after (s.rest.take failure.stopped)
          halted := true })

/-- How the tokens of a source end. -/
structure Ending where
  /-- The place of the end or of the error. -/
  position : Position
  /-- The lexical error, if there is one. -/
  fault : Option Diagnostic
  deriving Inhabited

/-- The tokens up to the end of the source or a lexical error, behind those already read, which
stand in reverse. Each takes a character, so one turn more than there are characters is enough. -/
def collect : Nat → Scanner → List Token → List Token × Ending
  | 0, s, tokens => (tokens.reverse, ⟨s.position, none⟩)
  | fuel + 1, s, tokens =>
    match s.next with
    | (.ok t, s') =>
      if t.kind.isEof then (tokens.reverse, ⟨t.position, none⟩) else collect fuel s' (t :: tokens)
    | (.error d, _) => (tokens.reverse, ⟨d.position, some d⟩)

/-- All tokens that are left, without the end, and how they end. -/
def tokens (s : Scanner) : List Token × Ending := s.collect (s.rest.length + 1) []

/-- All tokens that are left with the end of the source as the last one, or the lexical error. -/
def tokenize (s : Scanner) : Except Diagnostic (List Token) :=
  match s.tokens with
  | (tokens, ⟨position, none⟩) => .ok (tokens ++ [.eof position])
  | (_, ⟨_, some d⟩) => .error d

end Scanner

end PipeExpr
